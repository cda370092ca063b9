import CodeWeave.Defs.Index.SnapshotLaws
import CodeWeave.Defs.Workspace.CommitLaws
import CodeWeave.Defs.Workspace.System

namespace CodeWeave

open Runs

def Named (ws : Workspace) (shared : Reconciled) : Prop :=
  shared.snapshotId = shared.index.snapshotId ws shared.repoStatus.head

instance (ws : Workspace) (shared : Reconciled) : Decidable (Named ws shared) :=
  inferInstanceAs (Decidable (_ = _))

structure Sound (ws : Workspace) (shared : Reconciled) : Prop where
  named : Named ws shared
  tallied : shared.index.Tallied ws

structure Kept (old new : Reconciled) : Prop where
  generation : new.generation = old.generation
  snapshotId : new.snapshotId = old.snapshotId
  hashes : new.index.hashAt = old.index.hashAt
  repoStatus : new.repoStatus = old.repoStatus

structure Restamped (ws : Workspace) (status : RepoStatus) (old new : Reconciled) : Prop where
  generation : new.generation = old.generation
  snapshotId : new.snapshotId = old.index.snapshotId ws status.head
  hashes : new.index.hashAt = old.index.hashAt
  repoStatus : new.repoStatus = status

theorem Named.of_recompute (ws : Workspace) (shared : Reconciled) :
    Named ws (shared.recomputeSnapshot ws) := rfl

theorem Sound.kept {ws : Workspace} {old new : Reconciled} (sound : Sound ws old)
    (tallied : new.index.Tallied ws) (kept : Kept old new) : Sound ws new := by
  refine ⟨?_, tallied⟩
  rw [Named, kept.snapshotId, kept.repoStatus, sound.named]
  exact (CodeIndex.snapshotId_of_hashAt sound.tallied tallied kept.hashes _).symm

def Action.statusRefresh : Action → Option RepoStatus
  | .refreshStatus (.ok status) => some status
  | .git (.stage (.ok ()) (.ok status)) => some status
  | .git (.commit (.ok ()) (.ok status)) => some status
  | _ => none

-- A failing refresh goes through no path that differs from the index before the
-- failing read, and neither does the refresh that compensates a commit.
def SteadyFailure (ws : Workspace) (world : World) : Action → Prop
  | .reconcile io => world.state.ledger.needsReconcile = true →
      (¬∀ path ∈ world.state.ledger.pending, ws.refreshes world.disk path = true →
        ws.readable world.disk io.faults path = true) →
      ws.Steady world.disk io.faults (io.paths ws world.disk world.state.ledger)
        world.state.shared.index.hashAt
  | .commit io plan _ => (∀ item ∈ plan, io.writes item = true) →
      (¬∀ path ∈ planPaths plan,
        ws.readable (io.writtenDisk plan world) io.faults path = true) →
      ws.Steady (io.writtenDisk plan world) io.faults (io.order.run (planPaths plan))
          world.state.shared.index.hashAt ∧
        ws.Steady (io.restoredDisk plan world) io.compensateFaults
          (io.compensateOrder.run (planPaths plan)) world.state.shared.index.hashAt
  | _ => True

/-- One update of the published state, while an action runs. -/
inductive Publish (ws : Workspace) (world : World) (action : Action) :
    Reconciled × List Reconciled → Reconciled × List Reconciled → Prop
  | kept {old new : Reconciled} {seen : List Reconciled} (sound : Sound ws new)
      (kept : Kept old new) : Publish ws world action (old, seen) (new, seen ++ [new])
  | renewed {old new : Reconciled} {seen : List Reconciled} (sound : Sound ws new)
      (generation : new.generation = old.generation + 1) :
      Publish ws world action (old, seen) (new, seen ++ [new])
  | restamped {new : Reconciled} {status : RepoStatus} (sound : Sound ws new)
      (asked : action.statusRefresh = some status)
      (restamped : Restamped ws status world.state.shared new) :
      Publish ws world action (world.state.shared, world.state.seen)
        (new, world.state.seen ++ [new])

abbrev Publishes (ws : Workspace) (world : World) (action : Action) :
    Reconciled × List Reconciled → Reconciled × List Reconciled → Prop :=
  Relation.ReflTransGen (Publish ws world action)

def ReconciledState.published (state : ReconciledState) : Reconciled × List Reconciled :=
  (state.shared, state.seen)

section

variable {ws : Workspace} {io : ReconcileIo} {disk : Disk} {state : ReconciledState}

theorem tallied_refreshedState (sound : Sound ws state.shared) :
    (refreshedState ws io disk state).index.Tallied ws :=
  ws.tallied_refreshedIndex disk io.faults _ sound.tallied

-- Where a reconcile does not recompute the snapshot, neither the files nor HEAD moved.
theorem sound_publishedState (sound : Sound ws state.shared) {changed : List Text}
    (refreshed : (ws.refreshPaths disk io.faults (io.paths ws disk state.ledger)
      state.shared.index).1 = .ok changed) :
    Sound ws (publishedState ws io disk state changed) := by
  have tallied : (publishedState ws io disk state changed).index.Tallied ws := by
    rw [publishedState_index]
    exact tallied_refreshedState sound
  refine ⟨?_, tallied⟩
  have index := publishedState_index ws io disk state changed
  by_cases recomputed : changed ≠ [] ∨ (consulted ws io disk state changed).1.headChanged = true
  · simp only [publishedState, if_pos recomputed]
    exact .of_recompute ws _
  · rw [not_or, not_not, Bool.not_eq_true] at recomputed
    obtain ⟨unchanged, same⟩ := recomputed
    subst unchanged
    have head := Reconciled.consultStatus_head same
    have id := (refreshedState ws io disk state).consultStatus_snapshotId
      ((state.ledger.pending.any fun path => isGitPath path.relative) || ([] : List Text) ≠ [])
      io.status
    have plain : publishedState ws io disk state [] =
        (consulted ws io disk state []).2.bumpGeneration := by
      simp [publishedState, same]
    rw [Named, index, plain]
    calc
      _ = state.shared.snapshotId := id
      _ = state.shared.index.snapshotId ws state.shared.repoStatus.head := sound.named
      _ = (refreshedState ws io disk state).index.snapshotId ws state.shared.repoStatus.head :=
        (CodeIndex.snapshotId_of_hashAt sound.tallied (tallied_refreshedState sound)
          (hashAt_of_unchanged refreshed) _).symm
      _ = _ := congrArg _ head.symm

end

section

variable {ws : Workspace} {world : World}

theorem publishes_reconcile (io : ReconcileIo) (sound : Sound ws world.state.shared)
    (steady : SteadyFailure ws world (.reconcile io)) :
    Publishes ws world (.reconcile io) world.state.published
      (ws.act (.reconcile io) world).state.published := by
  have outcome := reconcileWith_outcome ws io world.disk world.state
  simp only [Workspace.act]
  revert outcome
  generalize ws.reconcileWith io world.disk world.state = result
  cases result with
  | mk result later =>
  intro outcome
  cases outcome with
  | idle none_asked => exact .refl
  | failed asked fails =>
    have kept : Kept world.state.shared (refreshedState ws io world.disk world.state) :=
      ⟨rfl, rfl, ws.hashAt_of_steady (steady asked fails), rfl⟩
    exact .single (.kept (sound.kept (tallied_refreshedState sound) kept) kept)
  | quiet asked reads unchanged same =>
    have index : (consulted ws io world.disk world.state []).2.index =
        (refreshedState ws io world.disk world.state).index := Reconciled.consultStatus_index _ _ _
    have kept : Kept world.state.shared (consulted ws io world.disk world.state []).2 := by
      constructor
      · exact Reconciled.consultStatus_generation _ _ _
      · exact Reconciled.consultStatus_snapshotId _ _ _
      · rw [index, hashAt_of_unchanged unchanged]
      · exact Reconciled.consultStatus_repoStatus same
    exact .single (.kept (sound.kept (by rw [index]; exact tallied_refreshedState sound) kept) kept)
  | published asked reads refreshed moved =>
    exact .single (.renewed (sound_publishedState sound refreshed) (publishedState_generation ..))

theorem publishes_rescan (io : ScanIo) (status : AppResult RepoStatus) (disk : Disk)
    (action : Action) :
    Publishes ws world action world.state.published
      (ws.rescan io status disk world.state).2.published := by
  rw [Workspace.rescan]
  cases scan : ws.scan disk io with
  | error error => exact .refl
  | ok index =>
    refine .single (.renewed ⟨.of_recompute ws _, ?_⟩ ?_)
    · have tallied : index.Tallied ws := ws.tallied_scanWorkspace scan
      simp only [Reconciled.recomputeSnapshot, Reconciled.bumpGeneration,
        Reconciled.applyRepoStatus_index]
      exact tallied
    · simp [Reconciled.recomputeSnapshot, Reconciled.bumpGeneration,
        ReconciledState.withLedger, ReconciledState.update]

theorem publishes_refreshRepoStatus (status : AppResult RepoStatus) {action : Action}
    (asked : ∀ fresh, status = .ok fresh → action.statusRefresh = some fresh)
    (sound : Sound ws world.state.shared) :
    Publishes ws world action world.state.published
      (ws.refreshRepoStatus status world.state).2.published := by
  cases status with
  | error error =>
    have kept : Kept world.state.shared
        ((world.state.shared.applyRepoStatus (.error error)).2.recomputeSnapshot ws) :=
      ⟨rfl, sound.named.symm, rfl, rfl⟩
    exact .single (.kept (sound.kept sound.tallied kept) kept)
  | ok fresh =>
    exact .single (.restamped ⟨.of_recompute ws _, sound.tallied⟩ (asked fresh rfl)
      ⟨rfl, rfl, rfl, rfl⟩)

theorem publishes_commit (io : CommitIo) (plan : List PlannedFile) (requestId : Text)
    (sound : Sound ws world.state.shared)
    (steady : SteadyFailure ws world (.commit io plan requestId)) :
    Publishes ws world (.commit io plan requestId) world.state.published
      (ws.act (.commit io plan requestId) world).state.published := by
  have outcome := ws.commitPlan_outcome io plan requestId world
  simp only [Workspace.act]
  revert outcome
  generalize ws.commitPlan io plan requestId world = result
  cases result with
  | mk result later =>
  intro outcome
  cases outcome with
  | writeFailed stopped described files => exact .refl
  | committed complete writes reads refresh publish =>
    refine .single (.renewed ?_ ?_)
    · rw [publish]
      refine ⟨.of_recompute ws _, ?_⟩
      simp only [Reconciled.recomputeSnapshot, Reconciled.bumpGeneration,
        Reconciled.applyRepoStatus_index, refresh]
      exact ws.tallied_refreshedIndex _ _ _ sound.tallied
    · simp [publish, refresh, Reconciled.recomputeSnapshot, Reconciled.bumpGeneration,
        Reconciled.withIndex]
  | @refreshFailed error report written restored refreshed compensated ledger markers complete
      at_write at_restore writes fails described files refresh compensation pending =>
    rw [at_write] at fails refresh
    obtain ⟨at_refresh, at_compensation⟩ := steady complete fails
    have first : Kept world.state.shared refreshed := by
      rw [refresh]
      exact ⟨rfl, rfl, ws.hashAt_of_steady at_refresh, rfl⟩
    have soundFirst : Sound ws refreshed := by
      refine sound.kept ?_ first
      rw [refresh]
      exact ws.tallied_refreshedIndex _ _ _ sound.tallied
    have second : Kept refreshed compensated := by
      rw [compensation]
      refine ⟨rfl, rfl, ws.hashAt_of_steady ?_, rfl⟩
      rw [first.hashes, at_restore]
      exact at_compensation
    have soundSecond : Sound ws compensated := by
      refine soundFirst.kept ?_ second
      rw [compensation]
      exact ws.tallied_refreshedIndex _ _ _ soundFirst.tallied
    have both := Relation.ReflTransGen.tail
      (.single (Publish.kept soundFirst first : Publish ws world (.commit io plan requestId)
        (world.state.shared, world.state.seen) (refreshed, world.state.seen ++ [refreshed])))
      (Publish.kept soundSecond second)
    rwa [List.append_assoc] at both

theorem publishes_act (action : Action) (sound : Sound ws world.state.shared)
    (steady : SteadyFailure ws world action) :
    Publishes ws world action world.state.published (ws.act action world).state.published := by
  cases action with
  | disk disk => exact .refl
  | observe paths => exact .refl
  | reconcile io => exact publishes_reconcile io sound steady
  | rescan io status => exact publishes_rescan io status world.disk _
  | refreshStatus status =>
    exact publishes_refreshRepoStatus status (fun fresh same => by rw [same]; rfl) sound
  | commit io plan requestId => exact publishes_commit io plan requestId sound steady
  | git mutation =>
    simp only [Workspace.act, Workspace.gitMutation]
    cases mutation with
    | stage ran status =>
      cases ran with
      | error error => exact .refl
      | ok =>
        exact publishes_refreshRepoStatus status (fun fresh same => by rw [same]; rfl) sound
    | commit ran status =>
      cases ran with
      | error error => exact .refl
      | ok =>
        exact publishes_refreshRepoStatus status (fun fresh same => by rw [same]; rfl) sound
    | restore ran io status =>
      cases ran with
      | error error => exact .refl
      | ok disk => exact publishes_rescan io status disk _

end

end CodeWeave
