import CodeWeave.Defs.Json

namespace CodeWeave

inductive ErrorCode
  | ambiguousHandleEditOrder
  | ambiguousSymbol
  | atomicWriteFailed
  | bashExecutionFailed
  | bashPipeFailed
  | bashQueueClosed
  | bashStartFailed
  | bashUnavailable
  | confirmationRequired
  | continuationScopeMismatch
  | duplicateRetrievalOperationId
  | exactMatchCount
  | gitFailed
  | gitTimeout
  | gitUnavailable
  | indexRefreshFailed
  | intelligenceStale
  | internalError
  | invalidArgument
  | invalidBashRequest
  | invalidChangeField
  | invalidConfig
  | invalidContinuation
  | invalidCwd
  | invalidExcludePattern
  | invalidFetchKind
  | invalidHandle
  | invalidHandleRange
  | invalidJson
  | invalidLspEdit
  | invalidLspPosition
  | invalidLspResponse
  | invalidLspUri
  | invalidOperationField
  | invalidOutlinePath
  | invalidPolicy
  | invalidRegex
  | invalidTimeout
  | lspBusy
  | lspError
  | lspProtocolError
  | lspStartFailed
  | lspSyncUnsupported
  | lspTimeout
  | lspTransportError
  | lspUnsupported
  | lspWorkerStartFailed
  | lspWorkerStopped
  | missingChangeField
  | missingHandle
  | missingOperationField
  | missingPrecondition
  | notGitRepository
  | notInitialized
  | outsideRoot
  | overlappingEdits
  | overlappingLspEdits
  | partialCommit
  | pathExists
  | pathNotFound
  | pathNotIndexed
  | permissionDenied
  | readFailed
  | runBusy
  | runNotFound
  | semanticBackendUnavailable
  | staleContinuation
  | staleFile
  | staleHandle
  | staleSnapshot
  | symbolNotFound
  | syntaxError
  | tooManyRetrievalOperations
  | unknownChangeField
  | unknownOperationField
  | unknownToolField
  | unsupportedChangeKind
  | unsupportedLspUri
  | unsupportedReadTarget
  | unsupportedRetrievalOperation
  | unsupportedWorkspaceEdit
  | workspaceNotDirectory
  | workspaceNotFound
  deriving DecidableEq

def ErrorCode.asStr : ErrorCode → String
  | .ambiguousHandleEditOrder => "AMBIGUOUS_HANDLE_EDIT_ORDER"
  | .ambiguousSymbol => "AMBIGUOUS_SYMBOL"
  | .atomicWriteFailed => "ATOMIC_WRITE_FAILED"
  | .bashExecutionFailed => "BASH_EXECUTION_FAILED"
  | .bashPipeFailed => "BASH_PIPE_FAILED"
  | .bashQueueClosed => "BASH_QUEUE_CLOSED"
  | .bashStartFailed => "BASH_START_FAILED"
  | .bashUnavailable => "BASH_UNAVAILABLE"
  | .confirmationRequired => "CONFIRMATION_REQUIRED"
  | .continuationScopeMismatch => "CONTINUATION_SCOPE_MISMATCH"
  | .duplicateRetrievalOperationId => "DUPLICATE_RETRIEVAL_OPERATION_ID"
  | .exactMatchCount => "EXACT_MATCH_COUNT"
  | .gitFailed => "GIT_FAILED"
  | .gitTimeout => "GIT_TIMEOUT"
  | .gitUnavailable => "GIT_UNAVAILABLE"
  | .indexRefreshFailed => "INDEX_REFRESH_FAILED"
  | .intelligenceStale => "INTELLIGENCE_STALE"
  | .internalError => "INTERNAL_ERROR"
  | .invalidArgument => "INVALID_ARGUMENT"
  | .invalidBashRequest => "INVALID_BASH_REQUEST"
  | .invalidChangeField => "INVALID_CHANGE_FIELD"
  | .invalidConfig => "INVALID_CONFIG"
  | .invalidContinuation => "INVALID_CONTINUATION"
  | .invalidCwd => "INVALID_CWD"
  | .invalidExcludePattern => "INVALID_EXCLUDE_PATTERN"
  | .invalidFetchKind => "INVALID_FETCH_KIND"
  | .invalidHandle => "INVALID_HANDLE"
  | .invalidHandleRange => "INVALID_HANDLE_RANGE"
  | .invalidJson => "INVALID_JSON"
  | .invalidLspEdit => "INVALID_LSP_EDIT"
  | .invalidLspPosition => "INVALID_LSP_POSITION"
  | .invalidLspResponse => "INVALID_LSP_RESPONSE"
  | .invalidLspUri => "INVALID_LSP_URI"
  | .invalidOperationField => "INVALID_OPERATION_FIELD"
  | .invalidOutlinePath => "INVALID_OUTLINE_PATH"
  | .invalidPolicy => "INVALID_POLICY"
  | .invalidRegex => "INVALID_REGEX"
  | .invalidTimeout => "INVALID_TIMEOUT"
  | .lspBusy => "LSP_BUSY"
  | .lspError => "LSP_ERROR"
  | .lspProtocolError => "LSP_PROTOCOL_ERROR"
  | .lspStartFailed => "LSP_START_FAILED"
  | .lspSyncUnsupported => "LSP_SYNC_UNSUPPORTED"
  | .lspTimeout => "LSP_TIMEOUT"
  | .lspTransportError => "LSP_TRANSPORT_ERROR"
  | .lspUnsupported => "LSP_UNSUPPORTED"
  | .lspWorkerStartFailed => "LSP_WORKER_START_FAILED"
  | .lspWorkerStopped => "LSP_WORKER_STOPPED"
  | .missingChangeField => "MISSING_CHANGE_FIELD"
  | .missingHandle => "MISSING_HANDLE"
  | .missingOperationField => "MISSING_OPERATION_FIELD"
  | .missingPrecondition => "MISSING_PRECONDITION"
  | .notGitRepository => "NOT_GIT_REPOSITORY"
  | .notInitialized => "NOT_INITIALIZED"
  | .outsideRoot => "OUTSIDE_ROOT"
  | .overlappingEdits => "OVERLAPPING_EDITS"
  | .overlappingLspEdits => "OVERLAPPING_LSP_EDITS"
  | .partialCommit => "PARTIAL_COMMIT"
  | .pathExists => "PATH_EXISTS"
  | .pathNotFound => "PATH_NOT_FOUND"
  | .pathNotIndexed => "PATH_NOT_INDEXED"
  | .permissionDenied => "PERMISSION_DENIED"
  | .readFailed => "READ_FAILED"
  | .runBusy => "RUN_BUSY"
  | .runNotFound => "RUN_NOT_FOUND"
  | .semanticBackendUnavailable => "SEMANTIC_BACKEND_UNAVAILABLE"
  | .staleContinuation => "STALE_CONTINUATION"
  | .staleFile => "STALE_FILE"
  | .staleHandle => "STALE_HANDLE"
  | .staleSnapshot => "STALE_SNAPSHOT"
  | .symbolNotFound => "SYMBOL_NOT_FOUND"
  | .syntaxError => "SYNTAX_ERROR"
  | .tooManyRetrievalOperations => "TOO_MANY_RETRIEVAL_OPERATIONS"
  | .unknownChangeField => "UNKNOWN_CHANGE_FIELD"
  | .unknownOperationField => "UNKNOWN_OPERATION_FIELD"
  | .unknownToolField => "UNKNOWN_TOOL_FIELD"
  | .unsupportedChangeKind => "UNSUPPORTED_CHANGE_KIND"
  | .unsupportedLspUri => "UNSUPPORTED_LSP_URI"
  | .unsupportedReadTarget => "UNSUPPORTED_READ_TARGET"
  | .unsupportedRetrievalOperation => "UNSUPPORTED_RETRIEVAL_OPERATION"
  | .unsupportedWorkspaceEdit => "UNSUPPORTED_WORKSPACE_EDIT"
  | .workspaceNotDirectory => "WORKSPACE_NOT_DIRECTORY"
  | .workspaceNotFound => "WORKSPACE_NOT_FOUND"

structure CommitDetails where
  failedPath : Option Text
  completedBeforeFailure : List Text
  restoredPaths : List Text
  compensationFailures : List (Text × String)
  manualRecoveryRequired : Bool
  compensationRefreshError : Option (ErrorCode × String)
  deriving DecidableEq

/-- The structured details of an error: one constructor for each shape of JSON
object an edit or a commit builds, and the object itself for the others. -/
inductive Details
  | path (path : Text)
  | pathWithGuidance (path : Text) (guidance : String)
  | symbol (path : Text) (symbol : Text)
  | range (startLine endLine : Nat)
  | matchCount (path : Text) (expected actual : Nat)
  | rangeMatchCount (path : Text) (expected actual startLine endLine : Nat)
  | hashes (path : Text) (expectedHash actualHash : Option Text)
  | staleSnapshot (expected actual : Text) (pathsRequiringRefetch : List Text)
      (retryable : Bool) (suggestedAction : String)
  | commit (details : CommitDetails)
  | json (value : Value)
  deriving DecidableEq

structure AppError where
  code : ErrorCode
  message : String
  details : Option Details
  deriving DecidableEq

abbrev AppResult (A : Type) := Except AppError A

theorem exists_of_isOk {E A : Type} {result : Except E A} (ok : result.isOk) :
    ∃ a, result = .ok a := by
  cases result with
  | error error => cases ok
  | ok a => exact ⟨a, rfl⟩

@[simp] theorem isOk_ok {E A : Type} (a : A) : (.ok a : Except E A).isOk = true := rfl

@[simp] theorem isOk_error {E A : Type} (error : E) : (.error error : Except E A).isOk = false := rfl

theorem eq_ok_of_toOption {E A : Type} {result : Except E A} {a : A}
    (h : result.toOption = some a) : result = .ok a := by
  cases result with
  | error error => cases h
  | ok value => cases h; rfl

section

variable {A B : Type}

def require (condition : Bool) (error : AppError) : AppResult Unit :=
  if condition then .ok () else .error error

def okOr (value : Option A) (error : AppError) : AppResult A :=
  match value with
  | some value => .ok value
  | none => .error error

theorem bind_eq_ok {x : AppResult A} {f : A → AppResult B} {b : B} :
    (x >>= f) = .ok b ↔ ∃ a, x = .ok a ∧ f a = .ok b := by
  cases x with
  | error error =>
    constructor
    · intro h; cases h
    · rintro ⟨_, h, _⟩; cases h
  | ok a =>
    constructor
    · exact fun h => ⟨a, rfl, h⟩
    · rintro ⟨_, h, k⟩; cases h; exact k

@[simp] theorem require_eq_ok {condition : Bool} {error : AppError} {u : Unit} :
    require condition error = .ok u ↔ condition = true := by
  cases condition <;> simp [require]

@[simp] theorem okOr_eq_ok {value : Option A} {error : AppError} {a : A} :
    okOr value error = .ok a ↔ value = some a := by
  cases value <;> simp [okOr]

end

def AppError.new (code : ErrorCode) (message : String) : AppError := ⟨code, message, none⟩

def AppError.withDetails (code : ErrorCode) (message : String) (details : Details) : AppError :=
  ⟨code, message, some details⟩

-- As `Display` prints it.
def AppError.display (error : AppError) : String := "[" ++ error.code.asStr ++ "] " ++ error.message

def AppError.invalid (message : String) : AppError := .new .invalidArgument message

inductive IoErrorKind
  | notFound
  | alreadyExists
  | permissionDenied
  | other
  deriving DecidableEq

structure IoError where
  kind : IoErrorKind
  message : String
  deriving DecidableEq

def AppError.internal (error : IoError) : AppError := .new .internalError error.message

def AppError.ofIo (error : IoError) : AppError :=
  let code := match error.kind with
    | .notFound => .pathNotFound
    | .alreadyExists => .pathExists
    | .permissionDenied => .permissionDenied
    | .other => .internalError
  .new code error.message

end CodeWeave
