import CodeWeave.Defs.Index.Scan
import CodeWeave.Defs.State.Ledger

namespace CodeWeave

structure RepoStatus where
  isGit : Bool
  head : Text
  branch : Text
  dirtyFiles : List Text
  stagedFiles : List Text
  unstagedFiles : List Text
  untrackedFiles : List Text
  partiallyStagedFiles : List Text
  deriving DecidableEq

def RepoStatus.default : RepoStatus := ⟨false, [], [], [], [], [], [], []⟩

structure Stamp where
  generation : Nat
  snapshotId : SnapshotId
  deriving DecidableEq

structure Reconciled where
  index : CodeIndex
  repoStatus : RepoStatus
  repoStatusStale : Bool
  generation : Nat
  snapshotId : SnapshotId

structure RepoStatusChange where
  changed : Bool
  headChanged : Bool
  deriving DecidableEq

namespace Reconciled

def stamp (state : Reconciled) : Stamp := ⟨state.generation, state.snapshotId⟩

def recomputeSnapshot (ws : Workspace) (state : Reconciled) : Reconciled :=
  { state with snapshotId := state.index.snapshotId ws state.repoStatus.head }

def applyRepoStatus (state : Reconciled) :
    AppResult RepoStatus → AppResult RepoStatusChange × Reconciled
  | .ok status =>
    (.ok ⟨status ≠ state.repoStatus, status.head ≠ state.repoStatus.head⟩,
      { state with repoStatus := status, repoStatusStale := false })
  | .error error => (.error error, { state with repoStatusStale := true })

-- A failed status, or none asked for, counts as no change.
def consultStatus (state : Reconciled) (consult : Bool) (status : AppResult RepoStatus) :
    RepoStatusChange × Reconciled :=
  if consult then
    match state.applyRepoStatus status with
    | (.ok change, state) => (change, state)
    | (.error _, state) => (⟨false, false⟩, state)
  else (⟨false, false⟩, state)

def bumpGeneration (state : Reconciled) : Reconciled :=
  { state with generation := state.generation + 1 }

end Reconciled

/-- The reconciled state with its ledger.  `seen` is a ghost: every state an
update has published, which is what readers can have seen. -/
structure ReconciledState where
  shared : Reconciled
  seen : List Reconciled
  ledger : ChangeLedger

namespace ReconciledState

def new (ws : Workspace) (index : CodeIndex) (repoStatus : AppResult RepoStatus) :
    ReconciledState :=
  let (status, stale) := match repoStatus with
    | .ok status => (status, false)
    | .error _ => (RepoStatus.default, true)
  let reconciled := Reconciled.recomputeSnapshot ws ⟨index, status, stale, 1, []⟩
  ⟨reconciled, [reconciled], .new⟩

-- `StateWriter::update`: the closure's state is stored whatever it returns.
def update {A : Type} (state : ReconciledState) (change : Reconciled → A × Reconciled) :
    A × ReconciledState :=
  let (result, shared) := change state.shared
  (result, { state with shared := shared, seen := state.seen ++ [shared] })

def withLedger (state : ReconciledState) (ledger : ChangeLedger) : ReconciledState :=
  { state with ledger := ledger }

end ReconciledState

end CodeWeave
