import CodeWeave.Defs.State.Reconciled

namespace CodeWeave

structure HashOrder where
  run : List PathBuf → List PathBuf
  perm : ∀ paths, (run paths).Perm paths

def HashOrder.stored : HashOrder := ⟨id, fun _ => .refl _⟩

/-- What a reconcile takes from outside the workspace's own state. -/
structure ReconcileIo where
  now : Instant
  timestamp : Timestamp
  newId : Text → Text
  order : HashOrder
  faults : ReadFaults
  status : AppResult RepoStatus

def ReconcileIo.calm : ReconcileIo := ⟨0, 0, id, .stored, fun _ => none, .ok .default⟩

def ReconcileIo.externalRecord (io : ReconcileIo) (index : CodeIndex) (generation : Nat)
    (path : Text) : MutationRecord where
  mutationId := io.newId path
  path := path
  beforeHash := none
  afterHash := (index.get path).map FileEntry.hash
  source := .external
  requestId := "watcher".toList
  timestamp := io.timestamp
  generation := generation

namespace Workspace

variable (ws : Workspace)

def refreshRepoStatus (status : AppResult RepoStatus) (state : ReconciledState) :
    AppResult Unit × ReconciledState :=
  state.update fun shared =>
    let (applied, shared) := shared.applyRepoStatus status
    (applied.map fun _ => (), shared.recomputeSnapshot ws)

-- The update closure of `reconcile_with`.
def publishReconcile (io : ReconcileIo) (disk : Disk) (drain : PendingDrain) (shared : Reconciled) :
    AppResult (List Text × List MutationRecord) × Reconciled :=
  let (refreshed, index) :=
    if drain.paths = [] then (.ok [], shared.index)
    else ws.refreshPaths disk io.faults (io.order.run drain.paths) shared.index
  let shared := { shared with index := index }
  match refreshed with
  | .error error => (.error error, shared)
  | .ok changed =>
    let (repo, shared) := shared.consultStatus (drain.gitEvent || changed ≠ []) io.status
    if changed = [] ∧ repo.changed = false then (.ok (changed, []), shared)
    else
      let shared := shared.bumpGeneration
      let shared := if changed ≠ [] ∨ repo.headChanged then shared.recomputeSnapshot ws else shared
      let external := (drain.external.filter fun path => path ∈ changed).map
        (io.externalRecord shared.index shared.generation)
      (.ok (changed, external), shared)

def reconcileWith (io : ReconcileIo) (disk : Disk) (state : ReconciledState) :
    AppResult (List Text) × ReconciledState :=
  match state.ledger.drainPending ws disk io.now with
  | (none, ledger) => (.ok [], state.withLedger ledger)
  | (some drain, ledger) =>
    match (state.withLedger ledger).update (ws.publishReconcile io disk drain) with
    | (.error error, state) => (.error error, state)
    | (.ok (changed, external), state) =>
      (.ok changed,
        if external = [] then state else state.withLedger (state.ledger.recordExternal external))

def reconcilePending (io : ReconcileIo) (disk : Disk) (state : ReconciledState) :
    AppResult (List Text) × ReconciledState :=
  if state.ledger.needsReconcile then ws.reconcileWith io disk state else (.ok [], state)

def rescan (io : ScanIo) (status : AppResult RepoStatus) (disk : Disk) (state : ReconciledState) :
    AppResult Unit × ReconciledState :=
  let state := state.withLedger state.ledger.clearPending
  match ws.scan disk io with
  | .error error => (.error error, state)
  | .ok index =>
    state.update fun shared =>
      let shared := { shared with index := index }
      let (_, shared) := shared.applyRepoStatus status
      (.ok (), (shared.bumpGeneration).recomputeSnapshot ws)

end Workspace

structure ChangesResponse where
  workspaceId : Text
  generation : Nat
  snapshotId : SnapshotId
  mutations : List MutationRecord
  deriving DecidableEq

-- The records and the stamp are read one after the other, under different locks.
def Workspace.changesResponse (ws : Workspace) (records : List MutationRecord)
    (state : ReconciledState) : ChangesResponse :=
  ⟨ws.id, state.shared.generation, state.shared.snapshotId, records⟩

end CodeWeave
