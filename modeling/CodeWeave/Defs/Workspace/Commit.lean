import CodeWeave.Defs.Workspace.Reconcile

namespace CodeWeave

structure PlannedFile where
  path : RelPath
  before : Option Text
  beforeHash : Option ContentHash
  after : Option Text
  deriving DecidableEq

structure World where
  disk : Disk
  state : ReconciledState

/-- What a commit takes from outside the workspace's own state: the clock, the
writes, restores and reads that fail, and the result of `git status`. -/
structure CommitIo where
  now : RelPath → Instant
  compensateNow : Instant
  timestamp : Timestamp
  newId : Text → Text
  modifiedNs : Nat
  writeFault : RelPath → Option IoError
  restoreFault : RelPath → Option IoError
  order : HashOrder
  faults : ReadFaults
  compensateOrder : HashOrder
  compensateFaults : ReadFaults
  status : AppResult RepoStatus

def CommitIo.calm : CommitIo where
  now _ := 0
  compensateNow := 0
  timestamp := 0
  newId := id
  modifiedNs := 0
  writeFault _ := none
  restoreFault _ := none
  order := .stored
  faults _ := none
  compensateOrder := .stored
  compensateFaults _ := none
  status := .ok .default

structure CommitProgress where
  plan : List PlannedFile
  completedCount : Nat

namespace CommitProgress

def new (plan : List PlannedFile) : CommitProgress := ⟨plan, 0⟩

def advance (progress : CommitProgress) : CommitProgress :=
  { progress with completedCount := progress.completedCount + 1 }

def completed (progress : CommitProgress) : List PlannedFile :=
  progress.plan.take progress.completedCount

def completedPaths (progress : CommitProgress) : List Text :=
  progress.completed.map fun item => item.path.text

end CommitProgress

/-- A world that has just been opened: the index is a scan of the disk, or empty
where the scan fails. -/
def World.opened (ws : Workspace) (disk : Disk) : World where
  disk := disk
  state := .new ws (match ws.scan disk .calm with | .ok index => index | .error _ => .empty)
    (.ok .default)

structure CompensationReport where
  restoredPaths : List Text
  compensationFailures : List (Text × String)
  compensationRefreshError : Option (ErrorCode × String)

namespace CompensationReport

def default : CompensationReport := ⟨[], [], none⟩

def manualRecoveryRequired (report : CompensationReport) : Bool :=
  !report.compensationFailures.isEmpty

end CompensationReport

def World.withLedger (world : World) (ledger : ChangeLedger) : World :=
  { world with state := world.state.withLedger ledger }

def putContent (disk : Disk) (fault : Option IoError) (path : RelPath) (content : Option Text)
    (modifiedNs : Nat) : Except IoError Disk :=
  match content with
  | some content => disk.writeAtomic fault path content modifiedNs
  | none => disk.removeFile fault path

def restoreOne (io : CommitIo) (disk : Disk) (item : PlannedFile) : Except IoError Disk :=
  putContent disk (io.restoreFault item.path) item.path item.before io.modifiedNs

def restoreEach (io : CommitIo) : List PlannedFile → CompensationReport → Disk →
    CompensationReport × Disk
  | [], report, disk => (report, disk)
  | item :: rest, report, disk =>
    match restoreOne io disk item with
    | .ok disk =>
      restoreEach io rest
        { report with restoredPaths := report.restoredPaths ++ [item.path.text] } disk
    | .error error =>
      restoreEach io rest
        { report with
          compensationFailures := report.compensationFailures ++ [(item.path.text, error.message)] }
        disk

def planPaths (plan : List PlannedFile) : List PathBuf :=
  plan.foldl (fun paths item => insertPath item.path.join paths) []

def writePlan (io : CommitIo) : List PlannedFile → CommitProgress → World →
    Option (PlannedFile × IoError) × CommitProgress × World
  | [], progress, world => (none, progress, world)
  | item :: rest, progress, world =>
    let absolute := item.path.join
    let world := world.withLedger (world.state.ledger.recordInternal absolute (io.now item.path))
    match putContent world.disk (io.writeFault item.path) item.path item.after io.modifiedNs with
    | .error error =>
      (some (item, error), progress, world.withLedger (world.state.ledger.forgetInternal absolute))
    | .ok disk => writePlan io rest progress.advance { world with disk := disk }

namespace Workspace

variable (ws : Workspace)

def commitRecord (io : CommitIo) (requestId : Text) (generation : Nat) (item : PlannedFile) :
    MutationRecord where
  mutationId := io.newId item.path.text
  path := item.path.text
  beforeHash := item.beforeHash
  afterHash := item.after.map ws.contentHash
  source := .mcpEdit
  requestId := requestId
  timestamp := io.timestamp
  generation := generation

-- The update closure of `compensate`. The snapshot is not recomputed.
def publishCompensation (io : CommitIo) (disk : Disk) (paths : List PathBuf) (shared : Reconciled) :
    AppResult (List Text) × Reconciled :=
  let (refreshed, index) :=
    ws.refreshPaths disk io.compensateFaults (io.compensateOrder.run paths) shared.index
  (refreshed, { shared with index := index })

def compensate (io : CommitIo) (completed : List PlannedFile) (refreshIndex : Bool)
    (world : World) : CompensationReport × World :=
  if completed = [] then (.default, world)
  else
    let ledger := completed.foldl
      (fun ledger item => ledger.recordInternal item.path.join io.compensateNow) world.state.ledger
    let (report, disk) := restoreEach io completed.reverse .default world.disk
    let state := world.state.withLedger ledger
    if refreshIndex then
      let paths := planPaths completed
      match state.update (ws.publishCompensation io disk paths) with
      | (.error error, state) =>
        ({ report with compensationRefreshError := some (error.code, error.message) },
          ⟨disk, state.withLedger (state.ledger.markPending paths)⟩)
      | (.ok _, state) => (report, ⟨disk, state⟩)
    else (report, ⟨disk, state⟩)

-- The update closure of `commit_plan`.
def publishCommit (io : CommitIo) (disk : Disk) (paths : List PathBuf) (shared : Reconciled) :
    AppResult Unit × Reconciled :=
  let (refreshed, index) := ws.refreshPaths disk io.faults (io.order.run paths) shared.index
  let shared := { shared with index := index }
  match refreshed with
  | .error error => (.error error, shared)
  | .ok _ =>
    let (_, shared) := shared.applyRepoStatus io.status
    (.ok (), shared.bumpGeneration.recomputeSnapshot ws)

def failedAfterApply (io : CommitIo) (progress : CommitProgress) (failureCode : ErrorCode)
    (message : String) (world : World) : AppError × World :=
  let (report, world) := ws.compensate io progress.completed true world
  let manualRecoveryRequired := report.manualRecoveryRequired
  (.withDetails (if manualRecoveryRequired then .partialCommit else failureCode) message
    (.commit
      { failedPath := none
        completedBeforeFailure := progress.completedPaths
        restoredPaths := report.restoredPaths
        compensationFailures := report.compensationFailures
        manualRecoveryRequired := manualRecoveryRequired
        compensationRefreshError := report.compensationRefreshError }), world)

def commitPlan (io : CommitIo) (plan : List PlannedFile) (requestId : Text) (world : World) :
    AppResult (List MutationRecord) × World :=
  let generation := world.state.shared.generation + 1
  let records := plan.map (ws.commitRecord io requestId generation)
  match writePlan io plan (.new plan) world with
  | (some (item, error), progress, world) =>
    let (report, world) := ws.compensate io progress.completed false world
    let manualRecoveryRequired := report.manualRecoveryRequired
    (.error (.withDetails (if manualRecoveryRequired then .partialCommit else .atomicWriteFailed)
      error.message
      (.commit
        { failedPath := some item.path.text
          completedBeforeFailure := progress.completedPaths
          restoredPaths := report.restoredPaths
          compensationFailures := report.compensationFailures
          manualRecoveryRequired := manualRecoveryRequired
          compensationRefreshError := none })), world)
  | (none, progress, world) =>
    match world.state.update (ws.publishCommit io world.disk (planPaths plan)) with
    | (.error error, state) =>
      let (error, world) := ws.failedAfterApply io progress .indexRefreshFailed error.display
        { world with state := state }
      (.error error, world)
    | (.ok (), state) => (.ok records, { world with state := state }.withLedger
        (state.ledger.record records))

end Workspace

end CodeWeave
