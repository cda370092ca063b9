import CodeWeave.Defs.Index.TreeLaws
import CodeWeave.Defs.Workspace.CommitLaws
import CodeWeave.Defs.Workspace.System

namespace CodeWeave

open Runs Overwrite

def ScanRoot (ws : Workspace) (io : ScanIo) (root : List Text) (respectIgnores : Bool) : Prop :=
  (root = [] ∧ respectIgnores = true) ∨
    (respectIgnores = false ∧ ∃ text ∈ ws.artifactPaths, ∃ relative,
      RelPath.new text = .ok relative ∧ io.resolve relative.components = some (.ok (some root)))

def Walks (ws : Workspace) (disk : Disk) (io : ScanIo) (cache : SymbolCache)
    (entry : FileEntry) : Prop :=
  ∃ root respectIgnores path, ScanRoot ws io root respectIgnores ∧
    ws.walked disk root respectIgnores path = true ∧
    ws.readEntry disk io.faults (pathOf path) cache = .ok (some entry)

inductive Refreshes (ws : Workspace) (world : World) : Action → Disk → ReadFaults → PathBuf → Prop
  | reconcile {io : ReconcileIo} {path : PathBuf} (pending : path ∈ world.state.ledger.pending)
      (drained : ws.refreshes world.disk path = true) :
      Refreshes ws world (.reconcile io) world.disk io.faults path
  | commit {io : CommitIo} {plan : List PlannedFile} {requestId : Text} {path : PathBuf}
      (planned : path ∈ planPaths plan) :
      Refreshes ws world (.commit io plan requestId) (io.writtenDisk plan world) io.faults path
  | compensate {io : CommitIo} {plan : List PlannedFile} {requestId : Text} {path : PathBuf}
      (planned : path ∈ planPaths plan) :
      Refreshes ws world (.commit io plan requestId) (io.restoredDisk plan world)
        io.compensateFaults path

inductive Scans (world : World) : Action → Disk → ScanIo → Prop
  | rescan {io : ScanIo} {status : AppResult RepoStatus} :
      Scans world (.rescan io status) world.disk io
  | restore {disk : Disk} {io : ScanIo} {status : AppResult RepoStatus} :
      Scans world (.git (.restore (.ok disk) io status)) disk io

inductive Origin (ws : Workspace) (world : World) (action : Action) (entry : FileEntry) : Prop
  | refreshed {disk : Disk} {faults : ReadFaults} {path : PathBuf}
      (asked : Refreshes ws world action disk faults path)
      (inserts : ws.effectOf disk faults path = .insert entry)
  | scanned {disk : Disk} {io : ScanIo} (asked : Scans world action disk io)
      (walks : Walks ws disk io ∅ entry)

section

variable {ws : Workspace} {index : CodeIndex} {key : Text} {entry : FileEntry}

theorem origin_of_refreshedIndex {disk : Disk} {faults : ReadFaults} {paths : List PathBuf}
    (found : (ws.refreshedIndex disk faults paths index).lookup key = some entry) :
    index.lookup key = some entry ∨
      ∃ path ∈ paths, ws.effectOf disk faults path = .insert entry := by
  rw [ws.lookup_refreshedIndex] at found
  rcases applyAll_cases (ws.patches disk faults paths) key index.lookup with
    untouched | ⟨pre, patch, post, split, -, decides⟩
  · rw [applyAll_untouched untouched] at found
    exact .inl found
  · have mem : patch ∈ ws.patches disk faults paths := by rw [split]; simp
    obtain ⟨path, refreshed, rfl⟩ := List.mem_map.mp mem
    rw [found] at decides
    refine .inr ⟨path, (List.takeWhile_prefix _).subset refreshed, ?_⟩
    cases effect : ws.effectOf disk faults path with
    | skip => rw [effect] at decides; cases decides
    | removeTree top =>
      rw [effect] at decides
      simp [Effect.patch] at decides
    | insert other =>
      rw [effect] at decides
      simp only [Effect.patch, Option.ite_none_right_eq_some, Option.some.injEq] at decides
      rw [decides.2]

theorem origin_of_foldl_insert {entries : List FileEntry}
    (found : (entries.foldl (fun index entry => index.insert ws entry) index).lookup key =
      some entry) : index.lookup key = some entry ∨ entry ∈ entries := by
  induction entries generalizing index with
  | nil => exact .inl found
  | cons first rest ih =>
    rcases ih found with before | later
    · rw [CodeIndex.lookup_insert] at before
      split at before
      · cases before
        exact .inr List.mem_cons_self
      · exact .inl before
    · exact .inr (List.mem_cons_of_mem _ later)

variable {disk : Disk} {io : ScanIo} {cache : SymbolCache} {scanned : CodeIndex}

theorem origin_of_scanDirectory {root : List Text} {respectIgnores : Bool}
    (from_root : ScanRoot ws io root respectIgnores)
    (ok : ws.scanDirectory disk io.faults root respectIgnores cache index = .ok scanned)
    (found : scanned.lookup key = some entry) :
    index.lookup key = some entry ∨ Walks ws disk io cache entry := by
  rw [Workspace.scanDirectory] at ok
  split at ok
  · cases ok
  · next entries read =>
    cases ok
    refine (origin_of_foldl_insert found).imp_right fun mem => ?_
    rw [List.reduceOption_mem_iff, mem_mapM_ok read] at mem
    obtain ⟨path, walked, read⟩ := mem
    exact ⟨root, respectIgnores, path, from_root, (List.mem_filter.mp walked).2, read⟩

theorem origin_of_scanArtifacts {texts : List Text} (artifacts : texts ⊆ ws.artifactPaths)
    (ok : ws.scanArtifacts disk io cache texts index = .ok scanned)
    (found : scanned.lookup key = some entry) :
    index.lookup key = some entry ∨ Walks ws disk io cache entry := by
  induction texts generalizing index with
  | nil => cases ok; exact .inl found
  | cons text rest ih =>
    obtain ⟨here, later⟩ := List.cons_subset.mp artifacts
    rw [Workspace.scanArtifacts] at ok
    split at ok
    · cases ok
    · next relative new =>
      split at ok
      · exact ih later ok
      · cases ok
      · cases ok
      · next root resolves =>
        split at ok
        · cases ok
        · next walk =>
          rcases ih later ok with before | walks
          · have from_root : ScanRoot ws io root false :=
              .inr ⟨rfl, text, here, relative, new, resolves⟩
            exact origin_of_scanDirectory from_root walk before
          · exact .inr walks

theorem walks_of_scanWorkspace (ok : ws.scanWorkspace disk io cache = .ok scanned)
    (found : scanned.lookup key = some entry) : Walks ws disk io cache entry := by
  rw [Workspace.scanWorkspace] at ok
  split at ok
  · cases ok
  · next walk =>
    rcases origin_of_scanArtifacts (List.Subset.refl _) ok found with before | walks
    · rcases origin_of_scanDirectory (.inl ⟨rfl, rfl⟩) walk before with nothing | walks
      · simp [CodeIndex.lookup, CodeIndex.empty] at nothing
      · exact walks
    · exact walks

theorem isSome_foldl_insert {entries : List FileEntry}
    (present : (index.lookup key).isSome ∨ ∃ entry ∈ entries, entry.path = key) :
    ((entries.foldl (fun index entry => index.insert ws entry) index).lookup key).isSome := by
  induction entries generalizing index with
  | nil => simpa using present
  | cons first rest ih =>
    refine ih ?_
    rw [CodeIndex.lookup_insert]
    by_cases here : key = first.path
    · exact .inl (by rw [if_pos here]; rfl)
    · rw [if_neg here]
      rcases present with before | ⟨entry, mem, names⟩
      · exact .inl before
      · refine .inr ⟨entry, (List.mem_cons.mp mem).resolve_left ?_, names⟩
        rintro rfl
        exact here names.symm

theorem keeps_scanDirectory {root : List Text} {respectIgnores : Bool}
    (ok : ws.scanDirectory disk io.faults root respectIgnores cache index = .ok scanned)
    (before : (index.lookup key).isSome) : (scanned.lookup key).isSome := by
  rw [Workspace.scanDirectory] at ok
  split at ok
  · cases ok
  · cases ok
    exact isSome_foldl_insert (.inl before)

theorem keeps_scanArtifacts {texts : List Text}
    (ok : ws.scanArtifacts disk io cache texts index = .ok scanned)
    (before : (index.lookup key).isSome) : (scanned.lookup key).isSome := by
  induction texts generalizing index with
  | nil => cases ok; exact before
  | cons text rest ih =>
    rw [Workspace.scanArtifacts] at ok
    split at ok
    · cases ok
    · split at ok
      · exact ih ok before
      · cases ok
      · cases ok
      · split at ok
        · cases ok
        · next walk => exact ih ok (keeps_scanDirectory walk before)

section

variable {root file : List Text} (read : ws.readEntry disk io.faults (pathOf file) cache =
  .ok (some entry))

include read

theorem isSome_scanDirectory {respectIgnores : Bool}
    (ok : ws.scanDirectory disk io.faults root respectIgnores cache index = .ok scanned)
    (walked : ws.walked disk root respectIgnores file = true) :
    (scanned.lookup entry.path).isSome := by
  rw [Workspace.scanDirectory] at ok
  split at ok
  · cases ok
  · next entries reads =>
    cases ok
    have inKeys : file ∈ disk.nodes.keys := by
      simp only [Workspace.walked, Bool.and_eq_true] at walked
      obtain ⟨bytes, isFile⟩ := Option.isSome_iff_exists.mp walked.1.1.1.2
      exact Disk.mem_keys_of_fileAt isFile
    have listed := (mem_mapM_ok reads (some entry)).mpr
      ⟨file, List.mem_filter.mpr ⟨inKeys, walked⟩, read⟩
    exact isSome_foldl_insert (.inr ⟨entry, List.reduceOption_mem_iff.mpr listed, rfl⟩)

theorem isSome_scanArtifacts {texts : List Text}
    (ok : ws.scanArtifacts disk io cache texts index = .ok scanned) {text : Text}
    (mem : text ∈ texts) {relative : RelPath} (new : RelPath.new text = .ok relative)
    (resolves : io.resolve relative.components = some (.ok (some root)))
    (walked : ws.walked disk root false file = true) : (scanned.lookup entry.path).isSome := by
  induction texts generalizing index with
  | nil => cases mem
  | cons first rest ih =>
    rw [Workspace.scanArtifacts] at ok
    rcases List.mem_cons.mp mem with rfl | later
    · simp only [new, resolves] at ok
      split at ok
      · cases ok
      · next walk => exact keeps_scanArtifacts ok (isSome_scanDirectory read walk walked)
    · split at ok
      · cases ok
      · split at ok
        · exact ih ok later
        · cases ok
        · cases ok
        · split at ok
          · cases ok
          · exact ih ok later

end

theorem isSome_of_walks (ok : ws.scanWorkspace disk io cache = .ok scanned)
    (walks : Walks ws disk io cache entry) : (scanned.lookup entry.path).isSome := by
  obtain ⟨root, respectIgnores, file, from_root, walked, read⟩ := walks
  rw [Workspace.scanWorkspace] at ok
  split at ok
  · cases ok
  · next walk =>
    rcases from_root with ⟨rfl, rfl⟩ | ⟨rfl, text, mem, relative, new, resolves⟩
    · exact keeps_scanArtifacts ok (isSome_scanDirectory read walk walked)
    · exact isSome_scanArtifacts read ok mem new resolves walked

end

section

variable {ws : Workspace} {world : World} {key : Text} {entry : FileEntry}

theorem origin_of_reconcile (io : ReconcileIo)
    (found : (ws.act (.reconcile io) world).state.shared.index.lookup key = some entry) :
    world.state.shared.index.lookup key = some entry ∨ Origin ws world (.reconcile io) entry := by
  have refreshed (h : (ws.refreshedIndex world.disk io.faults
      (io.paths ws world.disk world.state.ledger) world.state.shared.index).lookup key =
        some entry) :
      world.state.shared.index.lookup key = some entry ∨ Origin ws world (.reconcile io) entry := by
    refine (origin_of_refreshedIndex h).imp_right fun ⟨path, mem, inserts⟩ => ?_
    obtain ⟨pending, drained⟩ := ReconcileIo.mem_paths.mp mem
    exact .refreshed (.reconcile pending drained) inserts
  have outcome := reconcileWith_outcome ws io world.disk world.state
  simp only [Workspace.act] at found
  revert outcome found
  generalize ws.reconcileWith io world.disk world.state = result
  cases result with
  | mk result later =>
  intro found outcome
  cases outcome with
  | idle none_asked => exact .inl found
  | failed asked fails => exact refreshed found
  | quiet asked reads unchanged same =>
    simp only [consulted, Reconciled.consultStatus_index] at found
    exact refreshed found
  | published asked reads changed moved =>
    rw [publishedState_index] at found
    exact refreshed found

theorem origin_of_rescan {action : Action} {io : ScanIo} {status : AppResult RepoStatus}
    {disk : Disk} (asked : Scans world action disk io)
    (found : (ws.rescan io status disk world.state).2.shared.index.lookup key = some entry) :
    world.state.shared.index.lookup key = some entry ∨ Origin ws world action entry := by
  rw [Workspace.rescan] at found
  cases scan : ws.scan disk io with
  | error error =>
    rw [scan] at found
    exact .inl found
  | ok index =>
    rw [scan] at found
    simp only [ReconciledState.withLedger, ReconciledState.update, Reconciled.recomputeSnapshot,
      Reconciled.bumpGeneration, Reconciled.applyRepoStatus_index] at found
    exact .inr (.scanned asked (walks_of_scanWorkspace scan found))

theorem lookup_refreshRepoStatus (status : AppResult RepoStatus) (state : ReconciledState) :
    (ws.refreshRepoStatus status state).2.shared.index = state.shared.index := by
  cases status <;> rfl

theorem disk_of_committed {io : CommitIo} {plan : List PlannedFile} {requestId : Text}
    {records : List MutationRecord} {later : World}
    (committed : ws.commitPlan io plan requestId world = (.ok records, later)) :
    later.disk = io.writtenDisk plan world := by
  rw [Workspace.commitPlan] at committed
  rw [CommitIo.writtenDisk]
  revert committed
  generalize writePlan io plan (.new plan) world = written
  obtain ⟨stopped, progress, after⟩ := written
  cases stopped with
  | some failure => intro committed; cases committed
  | none =>
    intro committed
    simp only at committed
    split at committed
    · cases committed
    · cases committed; rfl

theorem origin_of_commitPlan (io : CommitIo) (plan : List PlannedFile) (requestId : Text)
    (found : (ws.act (.commit io plan requestId) world).state.shared.index.lookup key =
      some entry) :
    world.state.shared.index.lookup key = some entry ∨
      Origin ws world (.commit io plan requestId) entry := by
  have refreshed (h : (ws.refreshedIndex (io.writtenDisk plan world) io.faults
      (io.order.run (planPaths plan)) world.state.shared.index).lookup key = some entry) :
      world.state.shared.index.lookup key = some entry ∨
        Origin ws world (.commit io plan requestId) entry := by
    refine (origin_of_refreshedIndex h).imp_right fun ⟨path, mem, inserts⟩ => ?_
    exact .refreshed (.commit ((io.order.perm _).mem_iff.mp mem)) inserts
  have outcome := ws.commitPlan_outcome io plan requestId world
  simp only [Workspace.act] at found
  revert outcome found
  generalize commit : ws.commitPlan io plan requestId world = result
  cases result with
  | mk result later =>
  intro found outcome
  cases outcome with
  | writeFailed stopped described files => exact .inl found
  | committed complete writes reads refresh publish =>
    have at_write := disk_of_committed commit
    subst at_write
    simp only [publish, refresh, Reconciled.recomputeSnapshot, Reconciled.bumpGeneration,
      Reconciled.applyRepoStatus_index] at found
    exact refreshed found
  | refreshFailed complete at_write at_restore writes fails described files refresh compensation
      pending =>
    subst at_write at_restore
    simp only [compensation, refresh] at found
    rcases origin_of_refreshedIndex found with before | ⟨path, mem, inserts⟩
    · exact refreshed before
    · exact .inr (.refreshed (.compensate ((io.compensateOrder.perm _).mem_iff.mp mem)) inserts)

theorem origin_of_act (action : Action)
    (found : (ws.act action world).state.shared.index.lookup key = some entry) :
    world.state.shared.index.lookup key = some entry ∨ Origin ws world action entry := by
  cases action with
  | disk disk => exact .inl found
  | observe paths => exact .inl found
  | reconcile io => exact origin_of_reconcile io found
  | rescan io status => exact origin_of_rescan .rescan found
  | refreshStatus status =>
    simp only [Workspace.act, lookup_refreshRepoStatus] at found
    exact .inl found
  | commit io plan requestId => exact origin_of_commitPlan io plan requestId found
  | git mutation =>
    cases mutation with
    | stage ran status =>
      cases ran with
      | error error => exact .inl found
      | ok =>
        simp only [Workspace.act, Workspace.gitMutation, lookup_refreshRepoStatus] at found
        exact .inl found
    | commit ran status =>
      cases ran with
      | error error => exact .inl found
      | ok =>
        simp only [Workspace.act, Workspace.gitMutation, lookup_refreshRepoStatus] at found
        exact .inl found
    | restore ran io status =>
      cases ran with
      | error error => exact .inl found
      | ok disk => exact origin_of_rescan .restore found

end

end CodeWeave
