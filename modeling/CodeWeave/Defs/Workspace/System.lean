import CodeWeave.Defs.Workspace.Edit
import CodeWeave.Lib.Runs

/-! The workspace as a system: the watcher and the disk change under it, and every
writer of the reconciled state runs under the one writer lock. -/

namespace CodeWeave

/-- A mutating Git action, with what the `git` command does: its failure, or the
disk it leaves. -/
inductive GitMutation
  | stage (ran : AppResult Unit) (status : AppResult RepoStatus)
  | commit (ran : AppResult Unit) (status : AppResult RepoStatus)
  | restore (ran : AppResult Disk) (io : ScanIo) (status : AppResult RepoStatus)

inductive Action
  | disk (disk : Disk)
  | observe (paths : List PathBuf)
  | reconcile (io : ReconcileIo)
  | rescan (io : ScanIo) (status : AppResult RepoStatus)
  | refreshStatus (status : AppResult RepoStatus)
  | commit (io : CommitIo) (plan : List PlannedFile) (requestId : Text)
  | git (mutation : GitMutation)

namespace Workspace

variable (ws : Workspace)

-- The status refresh at the end reports a failure through the stale flag alone.
def gitMutation (mutation : GitMutation) (world : World) : AppResult Unit × World :=
  match mutation with
  | .stage ran status | .commit ran status =>
    match ran with
    | .error error => (.error error, world)
    | .ok () => (.ok (), { world with state := (ws.refreshRepoStatus status world.state).2 })
  | .restore ran io status =>
    match ran with
    | .error error => (.error error, world)
    | .ok disk =>
      let (rescanned, state) := ws.rescan io status disk world.state
      (rescanned, ⟨disk, state⟩)

def act (action : Action) (world : World) : World :=
  match action with
  | .disk disk => { world with disk := disk }
  | .observe paths => world.withLedger (world.state.ledger.observe ws world.disk paths)
  | .reconcile io => { world with state := (ws.reconcileWith io world.disk world.state).2 }
  | .rescan io status => { world with state := (ws.rescan io status world.disk world.state).2 }
  | .refreshStatus status => { world with state := (ws.refreshRepoStatus status world.state).2 }
  | .commit io plan requestId => (ws.commitPlan io plan requestId world).2
  | .git mutation => (ws.gitMutation mutation world).2

def Step (world : World) (action : Action) (later : World) : Prop := later = ws.act action world

def Opened (world : World) : Prop :=
  ∃ disk io cache index status, ws.scanWorkspace disk io cache = .ok index ∧
    world.state = .new ws index status

theorem opened_scan (disk : Disk) (ok : (ws.scan disk .calm).isOk = true) :
    ∃ index, ws.scan disk .calm = .ok index ∧
      (World.opened ws disk).state = .new ws index (.ok .default) := by
  cases scan : ws.scan disk .calm with
  | error error => rw [scan] at ok; cases ok
  | ok index => exact ⟨index, rfl, by rw [World.opened, scan]⟩

theorem opened_opened {disk : Disk} (ok : (ws.scan disk .calm).isOk = true) :
    ws.Opened (World.opened ws disk) := by
  obtain ⟨index, scan, state⟩ := ws.opened_scan disk ok
  exact ⟨disk, .calm, ∅, index, .ok .default, scan, state⟩

end Workspace

open Runs

theorem Workspace.run_foldl_act (ws : Workspace) (actions : List Action) (world : World) :
    Run ws.Step world actions (actions.foldl (fun world action => ws.act action world) world) := by
  induction actions generalizing world with
  | nil => exact .nil world
  | cons action rest ih =>
    have first : Run ws.Step world [action] (ws.act action world) := .single rfl
    exact first.trans (ih _)

/-- An edit is a reconcile, and a commit where it gets that far. -/
theorem Workspace.run_prepareEdit (ws : Workspace) (reconcile : ReconcileIo) (io : CommitIo)
    (requestId : Text) (request : EditRequest) (world : World) :
    ∃ actions, Run ws.Step world actions
      (ws.prepareEdit reconcile io requestId request world).2 := by
  have first : Run ws.Step world [.reconcile reconcile] (ws.act (.reconcile reconcile) world) :=
    .single rfl
  simp only [prepareEdit]
  split
  · next error state eq => exact ⟨_, by rwa [act, eq] at first⟩
  · next changed state eq =>
    rw [act, eq] at first
    split
    · exact ⟨_, first⟩
    · exact ⟨_, first⟩
    · next planned _ =>
      have second : ws.Step ⟨world.disk, state⟩ (.commit io planned requestId)
          (ws.commitPlan io planned requestId ⟨world.disk, state⟩).2 := rfl
      exact ⟨_, .snoc first second⟩

end CodeWeave
