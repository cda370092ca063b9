import CodeWeave.Defs.Index.FileLaws
import CodeWeave.Defs.State.LedgerLaws
import CodeWeave.Defs.Workspace.Reconcile

namespace CodeWeave

def Reconciled.withIndex (shared : Reconciled) (index : CodeIndex) : Reconciled :=
  { shared with index := index }

namespace Reconciled

@[simp] theorem applyRepoStatus_generation (shared : Reconciled) (status : AppResult RepoStatus) :
    (shared.applyRepoStatus status).2.generation = shared.generation := by
  cases status <;> rfl

@[simp] theorem applyRepoStatus_index (shared : Reconciled) (status : AppResult RepoStatus) :
    (shared.applyRepoStatus status).2.index = shared.index := by
  cases status <;> rfl

@[simp] theorem applyRepoStatus_snapshotId (shared : Reconciled) (status : AppResult RepoStatus) :
    (shared.applyRepoStatus status).2.snapshotId = shared.snapshotId := by
  cases status <;> rfl

section

variable (shared : Reconciled) (consult : Bool) (status : AppResult RepoStatus)

theorem consultStatus_index : (shared.consultStatus consult status).2.index = shared.index := by
  cases consult with
  | false => rfl
  | true => cases status <;> rfl

theorem consultStatus_generation :
    (shared.consultStatus consult status).2.generation = shared.generation := by
  cases consult with
  | false => rfl
  | true => cases status <;> rfl

theorem consultStatus_snapshotId :
    (shared.consultStatus consult status).2.snapshotId = shared.snapshotId := by
  cases consult with
  | false => rfl
  | true => cases status <;> rfl

variable {shared consult status}

theorem consultStatus_repoStatus (same : (shared.consultStatus consult status).1.changed = false) :
    (shared.consultStatus consult status).2.repoStatus = shared.repoStatus := by
  cases consult with
  | false => rfl
  | true =>
    cases status with
    | error error => rfl
    | ok status => simpa [consultStatus, applyRepoStatus] using same

theorem consultStatus_head (same : (shared.consultStatus consult status).1.headChanged = false) :
    (shared.consultStatus consult status).2.repoStatus.head = shared.repoStatus.head := by
  cases consult with
  | false => rfl
  | true =>
    cases status with
    | error error => rfl
    | ok status => simpa [consultStatus, applyRepoStatus] using same

end

end Reconciled

def ReconcileIo.paths (io : ReconcileIo) (ws : Workspace) (disk : Disk) (ledger : ChangeLedger) :
    List PathBuf :=
  io.order.run (ledger.pending.filter (ws.refreshes disk))

theorem ReconcileIo.mem_paths {io : ReconcileIo} {ws : Workspace} {disk : Disk}
    {ledger : ChangeLedger} {path : PathBuf} :
    path ∈ io.paths ws disk ledger ↔ path ∈ ledger.pending ∧ ws.refreshes disk path = true := by
  rw [paths, (io.order.perm _).mem_iff, List.mem_filter]

section

variable (ws : Workspace) (io : ReconcileIo) (disk : Disk) (state : ReconciledState)

def refreshedState : Reconciled :=
  state.shared.withIndex
    (ws.refreshedIndex disk io.faults (io.paths ws disk state.ledger) state.shared.index)

def consulted (changed : List Text) : RepoStatusChange × Reconciled :=
  (refreshedState ws io disk state).consultStatus
    ((state.ledger.pending.any fun path => isGitPath path.relative) || changed ≠ []) io.status

def publishedState (changed : List Text) : Reconciled :=
  let (repo, shared) := consulted ws io disk state changed
  if changed ≠ [] ∨ repo.headChanged then shared.bumpGeneration.recomputeSnapshot ws
  else shared.bumpGeneration

def externalRecords (changed : List Text) : List MutationRecord :=
  let published := publishedState ws io disk state changed
  ((state.ledger.drain ws disk io.now).external.filter fun path => path ∈ changed).map
    (io.externalRecord published.index published.generation)

inductive ReconcileOutcome : AppResult (List Text) → ReconciledState → Prop
  | idle (none_asked : state.ledger.needsReconcile = false) : ReconcileOutcome (.ok []) state
  | failed {error : AppError} (asked : state.ledger.needsReconcile = true)
      (fails : ¬∀ path ∈ state.ledger.pending, ws.refreshes disk path = true →
        ws.readable disk io.faults path = true) :
      ReconcileOutcome (.error error) ⟨refreshedState ws io disk state,
        state.seen ++ [refreshedState ws io disk state], state.ledger.drained ws disk io.now⟩
  | quiet (asked : state.ledger.needsReconcile = true)
      (reads : ∀ path ∈ state.ledger.pending, ws.refreshes disk path = true →
        ws.readable disk io.faults path = true)
      (unchanged : (ws.refreshPaths disk io.faults (io.paths ws disk state.ledger)
        state.shared.index).1 = .ok [])
      (same : (consulted ws io disk state []).1.changed = false) :
      ReconcileOutcome (.ok []) ⟨(consulted ws io disk state []).2,
        state.seen ++ [(consulted ws io disk state []).2], state.ledger.drained ws disk io.now⟩
  | published {changed : List Text} (asked : state.ledger.needsReconcile = true)
      (reads : ∀ path ∈ state.ledger.pending, ws.refreshes disk path = true →
        ws.readable disk io.faults path = true)
      (refreshed : (ws.refreshPaths disk io.faults (io.paths ws disk state.ledger)
        state.shared.index).1 = .ok changed)
      (moved : changed ≠ [] ∨ (consulted ws io disk state changed).1.changed = true) :
      ReconcileOutcome (.ok changed) ⟨publishedState ws io disk state changed,
        state.seen ++ [publishedState ws io disk state changed],
        if externalRecords ws io disk state changed = [] then state.ledger.drained ws disk io.now
        else (state.ledger.drained ws disk io.now).recordExternal
          (externalRecords ws io disk state changed)⟩

theorem refreshPaths_drain (paths : List PathBuf) (index : CodeIndex) :
    (if paths = [] then ((.ok [] : AppResult (List Text)), index)
      else ws.refreshPaths disk io.faults (io.order.run paths) index) =
      ws.refreshPaths disk io.faults (io.order.run paths) index := by
  split
  · next none_left =>
    subst none_left
    rw [(io.order.perm []).eq_nil]
    rfl
  · rfl

theorem publishReconcile_eq :
    ws.publishReconcile io disk (state.ledger.drain ws disk io.now) state.shared =
      match (ws.refreshPaths disk io.faults (io.paths ws disk state.ledger) state.shared.index).1 with
      | .error error => (.error error, refreshedState ws io disk state)
      | .ok changed =>
        if changed = [] ∧ (consulted ws io disk state changed).1.changed = false then
          (.ok (changed, []), (consulted ws io disk state changed).2)
        else (.ok (changed, externalRecords ws io disk state changed),
          publishedState ws io disk state changed) := by
  have index := ws.refreshPaths_snd disk io.faults (io.paths ws disk state.ledger) state.shared.index
  have paths : io.order.run (state.ledger.drain ws disk io.now).paths = io.paths ws disk state.ledger := by
    rw [state.ledger.drain_paths, ReconcileIo.paths]
  rw [Workspace.publishReconcile, refreshPaths_drain, paths]
  simp only [index, state.ledger.drain_gitEvent]
  cases (ws.refreshPaths disk io.faults (io.paths ws disk state.ledger) state.shared.index).1 with
  | error error => rfl
  | ok changed =>
    by_cases quiet : changed = [] ∧ (consulted ws io disk state changed).1.changed = false
    · simp only [if_pos quiet]
      exact if_pos quiet
    · simp only [if_neg quiet]
      exact if_neg quiet

theorem reconcileWith_outcome :
    ReconcileOutcome ws io disk state (ws.reconcileWith io disk state).1
      (ws.reconcileWith io disk state).2 := by
  rw [Workspace.reconcileWith, ChangeLedger.drainPending_eq]
  by_cases asked : state.ledger.needsReconcile = true
  · rw [if_pos asked]
    have reads := ws.refreshPaths_isOk disk io.faults (io.paths ws disk state.ledger)
      state.shared.index
    simp only [ReconcileIo.mem_paths, and_imp] at reads
    simp only [ReconciledState.update, ReconciledState.withLedger, publishReconcile_eq]
    cases refreshed : (ws.refreshPaths disk io.faults (io.paths ws disk state.ledger)
        state.shared.index).1 with
    | error error =>
      rw [refreshed] at reads
      refine .failed asked ?_
      rw [← reads]
      exact Bool.false_ne_true
    | ok changed =>
      rw [refreshed] at reads
      have all := reads.mp rfl
      by_cases quiet : changed = [] ∧ (consulted ws io disk state changed).1.changed = false
      · simp only [if_pos quiet, if_true]
        have unchanged := quiet.1
        subst unchanged
        exact .quiet asked all refreshed quiet.2
      · simp only [if_neg quiet]
        have moved : changed ≠ [] ∨ (consulted ws io disk state changed).1.changed = true := by
          rw [not_and_or, Bool.not_eq_false] at quiet
          exact quiet
        have outcome := ReconcileOutcome.published asked all refreshed moved
        split
        · next none_recorded => rwa [if_pos none_recorded] at outcome
        · next recorded => rwa [if_neg recorded] at outcome
  · rw [if_neg asked]
    exact .idle (Bool.not_eq_true _ ▸ asked)

end

section

variable (ws : Workspace) (io : ReconcileIo) (disk : Disk) (state : ReconciledState)

theorem publishedState_index (changed : List Text) :
    (publishedState ws io disk state changed).index = (refreshedState ws io disk state).index := by
  have consult := (refreshedState ws io disk state).consultStatus_index
    ((state.ledger.pending.any fun path => isGitPath path.relative) || changed ≠ []) io.status
  simp only [publishedState]
  split
  · exact consult
  · exact consult

theorem publishedState_generation (changed : List Text) :
    (publishedState ws io disk state changed).generation = state.shared.generation + 1 := by
  have consult := (refreshedState ws io disk state).consultStatus_generation
    ((state.ledger.pending.any fun path => isGitPath path.relative) || changed ≠ []) io.status
  simp only [publishedState]
  split
  · exact congrArg (· + 1) consult
  · exact congrArg (· + 1) consult

variable {ws io disk state} in
theorem hashAt_of_unchanged (unchanged : (ws.refreshPaths disk io.faults
    (io.paths ws disk state.ledger) state.shared.index).1 = .ok []) :
    (refreshedState ws io disk state).index.hashAt = state.shared.index.hashAt := by
  funext key
  by_contra moved
  rw [refreshedState, Reconciled.withIndex, ← ws.refreshPaths_snd] at moved
  cases ws.hash_changed_of_refreshPaths unchanged moved

end

end CodeWeave
