import CodeWeave.Defs.Workspace.Commit
import CodeWeave.Defs.Workspace.ReconcileLaws

namespace CodeWeave

open Overwrite

def contentPatch (path : RelPath) (content : Option Text) : Patch (List Text) (Option ByteArray) :=
  fun components => if components = path.components then some (content.map Text.bytes) else none

@[simp] theorem contentPatch_self (path : RelPath) (content : Option Text) :
    contentPatch path content path.components = some (content.map Text.bytes) := by
  simp [contentPatch]

theorem contentPatch_other {path : RelPath} {components : List Text}
    (other : components ≠ path.components) (content : Option Text) :
    contentPatch path content components = none := by
  simp [contentPatch, other]

def succeeds (fault : Option IoError) (path : RelPath) (content : Option Text) : Bool :=
  fault.isNone && (content.isNone || path.components ≠ [])

theorem putContent_isOk (disk : Disk) (fault : Option IoError) (path : RelPath)
    (content : Option Text) (modifiedNs : Nat) :
    (putContent disk fault path content modifiedNs).isOk = succeeds fault path content := by
  cases fault with
  | some error => cases content <;> rfl
  | none =>
    cases content with
    | none => rfl
    | some content =>
      simp only [putContent, Disk.writeAtomic, succeeds]
      split
      · next root => simp [root]
      · next inside => simp [inside]

theorem fileAt_putContent {disk disk' : Disk} {fault : Option IoError} {path : RelPath}
    {content : Option Text} {modifiedNs : Nat}
    (h : putContent disk fault path content modifiedNs = .ok disk') :
    disk'.fileAt = (contentPatch path content).apply disk.fileAt := by
  funext components
  cases content with
  | none =>
    rw [Disk.fileAt_removeFile h, Patch.apply, contentPatch]
    split <;> rfl
  | some content =>
    rw [Disk.fileAt_writeAtomic h, Patch.apply, contentPatch]
    split <;> rfl

namespace ReconciledState

def withMarkers (state : ReconciledState) (markers : Markers) : ReconciledState :=
  state.withLedger { state.ledger with internalWrites := markers }

@[simp] theorem withMarkers_shared (state : ReconciledState) (markers : Markers) :
    (state.withMarkers markers).shared = state.shared := rfl

@[simp] theorem withMarkers_seen (state : ReconciledState) (markers : Markers) :
    (state.withMarkers markers).seen = state.seen := rfl

end ReconciledState

def writtenContents (items : List PlannedFile) : List (Patch (List Text) (Option ByteArray)) :=
  items.map fun item => contentPatch item.path item.after

def restoredContents (items : List PlannedFile) : List (Patch (List Text) (Option ByteArray)) :=
  items.map fun item => contentPatch item.path item.before

namespace CommitIo

variable (io : CommitIo)

def writes (item : PlannedFile) : Bool := succeeds (io.writeFault item.path) item.path item.after

def restores (item : PlannedFile) : Bool :=
  succeeds (io.restoreFault item.path) item.path item.before

def written (plan : List PlannedFile) : List PlannedFile := plan.takeWhile io.writes

def restored (completed : List PlannedFile) : List PlannedFile :=
  completed.reverse.filter io.restores

end CommitIo

theorem writePlan_cons (io : CommitIo) (item : PlannedFile) (rest : List PlannedFile)
    (progress : CommitProgress) (world : World) :
    (io.writes item = false ∧ ∃ error markers, writePlan io (item :: rest) progress world =
        (some (item, error), progress, ⟨world.disk, world.state.withMarkers markers⟩)) ∨
      (io.writes item = true ∧ ∃ disk markers,
        putContent world.disk (io.writeFault item.path) item.path item.after io.modifiedNs =
          .ok disk ∧
        writePlan io (item :: rest) progress world =
          writePlan io rest progress.advance ⟨disk, world.state.withMarkers markers⟩) := by
  let recorded := world.state.ledger.recordInternal item.path.join (io.now item.path)
  have ok := putContent_isOk world.disk (io.writeFault item.path) item.path item.after io.modifiedNs
  cases outcome : putContent world.disk (io.writeFault item.path) item.path item.after
      io.modifiedNs with
  | error error =>
    refine .inl ⟨?_, error, (recorded.forgetInternal item.path.join).internalWrites, ?_⟩
    · rw [CommitIo.writes, ← ok, outcome]; rfl
    · simp only [writePlan, World.withLedger, outcome]; rfl
  | ok disk =>
    refine .inr ⟨?_, disk, recorded.internalWrites, rfl, ?_⟩
    · rw [CommitIo.writes, ← ok, outcome]; rfl
    · simp only [writePlan, World.withLedger, outcome]; rfl

theorem writePlan_failure (io : CommitIo) (items : List PlannedFile) (progress : CommitProgress)
    (world : World) :
    (writePlan io items progress world).1.map Prod.fst = (items.dropWhile io.writes).head? := by
  induction items generalizing progress world with
  | nil => rfl
  | cons item rest ih =>
    cases writePlan_cons io item rest progress world with
    | inl stops =>
      obtain ⟨fails, error, markers, eq⟩ := stops
      simp [eq, fails]
    | inr goes =>
      obtain ⟨writes, disk, markers, -, eq⟩ := goes
      simp [eq, writes, ih]

theorem writePlan_progress (io : CommitIo) (items : List PlannedFile) (progress : CommitProgress)
    (world : World) :
    (writePlan io items progress world).2.1 =
      ⟨progress.plan, progress.completedCount + (io.written items).length⟩ := by
  induction items generalizing progress world with
  | nil => rfl
  | cons item rest ih =>
    cases writePlan_cons io item rest progress world with
    | inl stops =>
      obtain ⟨fails, error, markers, eq⟩ := stops
      simp [eq, CommitIo.written, fails]
    | inr goes =>
      obtain ⟨writes, disk, markers, -, eq⟩ := goes
      rw [eq, ih]
      simp only [CommitProgress.advance, CommitIo.written, List.takeWhile_cons, writes, if_true,
        List.length_cons, CommitProgress.mk.injEq, true_and]
      omega

theorem writePlan_fileAt (io : CommitIo) (items : List PlannedFile) (progress : CommitProgress)
    (world : World) :
    (writePlan io items progress world).2.2.disk.fileAt =
      applyAll (writtenContents (io.written items)) world.disk.fileAt := by
  induction items generalizing progress world with
  | nil => rfl
  | cons item rest ih =>
    cases writePlan_cons io item rest progress world with
    | inl stops =>
      obtain ⟨fails, error, markers, eq⟩ := stops
      simp [eq, CommitIo.written, fails, writtenContents]
    | inr goes =>
      obtain ⟨writes, disk, markers, put, eq⟩ := goes
      rw [eq, ih, fileAt_putContent put]
      simp [CommitIo.written, writes, writtenContents]

theorem writePlan_state (io : CommitIo) (items : List PlannedFile) (progress : CommitProgress)
    (world : World) :
    ∃ markers, (writePlan io items progress world).2.2.state = world.state.withMarkers markers := by
  induction items generalizing progress world with
  | nil => exact ⟨world.state.ledger.internalWrites, rfl⟩
  | cons item rest ih =>
    cases writePlan_cons io item rest progress world with
    | inl stops =>
      obtain ⟨fails, error, markers, eq⟩ := stops
      exact ⟨markers, by rw [eq]⟩
    | inr goes =>
      obtain ⟨writes, disk, markers, -, eq⟩ := goes
      obtain ⟨later, state⟩ := ih progress.advance ⟨disk, world.state.withMarkers markers⟩
      exact ⟨later, by rw [eq, state]; rfl⟩

theorem writePlan_completed (io : CommitIo) (plan : List PlannedFile) (world : World) :
    (writePlan io plan (.new plan) world).2.1.completed = io.written plan := by
  rw [writePlan_progress]
  simp [CommitProgress.completed, CommitProgress.new, CommitIo.written,
    List.takeWhile_eq_take_findIdx_not]

theorem restoreEach_cons (io : CommitIo) (item : PlannedFile) (rest : List PlannedFile)
    (report : CompensationReport) (disk : Disk) :
    (io.restores item = true ∧ ∃ disk',
      disk'.fileAt = (contentPatch item.path item.before).apply disk.fileAt ∧
      restoreEach io (item :: rest) report disk = restoreEach io rest
        { report with restoredPaths := report.restoredPaths ++ [item.path.text] } disk') ∨
      (io.restores item = false ∧ ∃ message,
        restoreEach io (item :: rest) report disk = restoreEach io rest
          { report with
            compensationFailures := report.compensationFailures ++ [(item.path.text, message)] }
          disk) := by
  have ok := putContent_isOk disk (io.restoreFault item.path) item.path item.before io.modifiedNs
  cases outcome : putContent disk (io.restoreFault item.path) item.path item.before
      io.modifiedNs with
  | error error =>
    refine .inr ⟨?_, error.message, ?_⟩
    · rw [CommitIo.restores, ← ok, outcome]; rfl
    · simp only [restoreEach, restoreOne, outcome]
  | ok disk' =>
    refine .inl ⟨?_, disk', fileAt_putContent outcome, ?_⟩
    · rw [CommitIo.restores, ← ok, outcome]; rfl
    · simp only [restoreEach, restoreOne, outcome]

theorem restoreEach_report (io : CommitIo) (items : List PlannedFile) (report : CompensationReport)
    (disk : Disk) :
    (restoreEach io items report disk).1.restoredPaths =
        report.restoredPaths ++ (items.filter io.restores).map (fun item => item.path.text) ∧
      (restoreEach io items report disk).1.compensationFailures.map Prod.fst =
        report.compensationFailures.map Prod.fst ++
          (items.filter fun item => !io.restores item).map (fun item => item.path.text) ∧
      (restoreEach io items report disk).1.compensationRefreshError =
        report.compensationRefreshError := by
  induction items generalizing report disk with
  | nil => simp [restoreEach]
  | cons item rest ih =>
    cases restoreEach_cons io item rest report disk with
    | inl goes =>
      obtain ⟨restores, disk', -, eq⟩ := goes
      rw [eq]
      simpa [restores] using
        ih { report with restoredPaths := report.restoredPaths ++ [item.path.text] } disk'
    | inr stays =>
      obtain ⟨fails, message, eq⟩ := stays
      rw [eq]
      simpa [fails] using
        ih { report with
          compensationFailures := report.compensationFailures ++ [(item.path.text, message)] } disk

theorem restoreEach_fileAt (io : CommitIo) (items : List PlannedFile) (report : CompensationReport)
    (disk : Disk) :
    (restoreEach io items report disk).2.fileAt =
      applyAll (restoredContents (items.filter io.restores)) disk.fileAt := by
  induction items generalizing report disk with
  | nil => rfl
  | cons item rest ih =>
    cases restoreEach_cons io item rest report disk with
    | inl goes =>
      obtain ⟨restores, disk', files, eq⟩ := goes
      rw [eq, ih, files]
      simp [restores, restoredContents]
    | inr stays =>
      obtain ⟨fails, message, eq⟩ := stays
      rw [eq, ih]
      simp [fails]

namespace CommitIo

variable (io : CommitIo)

def unrestored (completed : List PlannedFile) : List PlannedFile :=
  completed.reverse.filter fun item => !io.restores item

def writtenDisk (plan : List PlannedFile) (world : World) : Disk :=
  (writePlan io plan (.new plan) world).2.2.disk

def restoredDisk (plan : List PlannedFile) (world : World) : Disk :=
  (restoreEach io plan.reverse .default (io.writtenDisk plan world)).2

def compensated (completed : List PlannedFile) (files : List Text → Option ByteArray) :
    List Text → Option ByteArray :=
  applyAll (restoredContents (io.restored completed)) (applyAll (writtenContents completed) files)

end CommitIo

structure CompensationReport.Describes (report : CompensationReport) (io : CommitIo)
    (completed : List PlannedFile) : Prop where
  restored : report.restoredPaths = (io.restored completed).map fun item => item.path.text
  failed : report.compensationFailures.map Prod.fst =
    (io.unrestored completed).map fun item => item.path.text

theorem CompensationReport.Describes.manualRecoveryRequired {report : CompensationReport}
    {io : CommitIo} {completed : List PlannedFile} (h : report.Describes io completed) :
    report.manualRecoveryRequired = true ↔ io.unrestored completed ≠ [] := by
  have lengths := congrArg List.length h.failed
  simp only [List.length_map] at lengths
  rw [CompensationReport.manualRecoveryRequired, Bool.not_eq_true', List.isEmpty_eq_false_iff,
    ← List.length_pos_iff, ← List.length_pos_iff, lengths]

theorem restoreEach_describes (io : CommitIo) (completed : List PlannedFile) (disk : Disk) :
    (restoreEach io completed.reverse .default disk).1.Describes io completed := by
  have report := restoreEach_report io completed.reverse .default disk
  exact ⟨report.1, report.2.1⟩

theorem foldl_recordInternal (items : List PlannedFile) (now : Instant) (ledger : ChangeLedger) :
    ∃ markers, items.foldl (fun ledger item => ledger.recordInternal item.path.join now) ledger =
      { ledger with internalWrites := markers } := by
  induction items generalizing ledger with
  | nil => exact ⟨ledger.internalWrites, rfl⟩
  | cons item rest ih =>
    obtain ⟨markers, eq⟩ := ih (ledger.recordInternal item.path.join now)
    exact ⟨markers, by rw [List.foldl_cons, eq]; rfl⟩

namespace Workspace

variable (ws : Workspace)

theorem compensate_without_refresh (io : CommitIo) (completed : List PlannedFile) (world : World) :
    ∃ report disk markers,
      ws.compensate io completed false world = (report, ⟨disk, world.state.withMarkers markers⟩) ∧
      report.Describes io completed ∧ report.compensationRefreshError = none ∧
      disk.fileAt = applyAll (restoredContents (io.restored completed)) world.disk.fileAt := by
  by_cases nothing : completed = []
  · refine ⟨.default, world.disk, world.state.ledger.internalWrites, ?_, ?_, rfl, ?_⟩
    · rw [compensate, if_pos nothing]; rfl
    · subst nothing; exact ⟨rfl, rfl⟩
    · subst nothing; rfl
  · obtain ⟨markers, ledger⟩ := foldl_recordInternal completed io.compensateNow world.state.ledger
    refine ⟨_, _, markers, ?_, restoreEach_describes io completed world.disk, ?_,
      restoreEach_fileAt io completed.reverse .default world.disk⟩
    · rw [compensate, if_neg nothing, ledger]; rfl
    · exact (restoreEach_report io completed.reverse .default world.disk).2.2

theorem compensate_with_refresh (io : CommitIo) {completed : List PlannedFile}
    (some_completed : completed ≠ []) (world : World) :
    ∃ report disk markers,
      let paths := planPaths completed
      let shared := world.state.shared.withIndex (ws.refreshedIndex disk io.compensateFaults
        (io.compensateOrder.run paths) world.state.shared.index)
      let ledger := { world.state.ledger with internalWrites := markers }
      ws.compensate io completed true world = (report, ⟨disk, shared, world.state.seen ++ [shared],
        if ∀ path ∈ paths, ws.readable disk io.compensateFaults path then ledger
        else ledger.markPending paths⟩) ∧
      report.Describes io completed ∧
      disk = (restoreEach io completed.reverse .default world.disk).2 := by
  obtain ⟨markers, recorded⟩ := foldl_recordInternal completed io.compensateNow world.state.ledger
  have described := restoreEach_describes io completed world.disk
  rw [compensate, if_neg some_completed, recorded]
  revert described
  generalize restoreEach io completed.reverse .default world.disk = outcome
  cases outcome with
  | mk report disk =>
  intro described
  have index := ws.refreshPaths_snd disk io.compensateFaults
    (io.compensateOrder.run (planPaths completed)) world.state.shared.index
  have reads := ws.refreshPaths_isOk disk io.compensateFaults
    (io.compensateOrder.run (planPaths completed)) world.state.shared.index
  simp only [(io.compensateOrder.perm _).mem_iff] at reads
  simp only [if_true, ReconciledState.update, publishCompensation, ReconciledState.withLedger, index]
  cases refreshed : (ws.refreshPaths disk io.compensateFaults
      (io.compensateOrder.run (planPaths completed)) world.state.shared.index).1 with
  | error error =>
    rw [refreshed] at reads
    have unreadable : ¬∀ path ∈ planPaths completed,
        ws.readable disk io.compensateFaults path = true := by
      rw [← reads]
      exact Bool.false_ne_true
    let report := { report with compensationRefreshError := some (error.code, error.message) }
    exact ⟨report, disk, markers, by rw [if_neg unreadable]; rfl,
      ⟨described.restored, described.failed⟩, rfl⟩
  | ok changed =>
    rw [refreshed] at reads
    exact ⟨report, disk, markers, by rw [if_pos (reads.mp rfl)]; rfl, described, rfl⟩

end Workspace

/-- The three ways a commit ends, with what each leaves on disk and in the
published state. -/
inductive CommitOutcome (ws : Workspace) (io : CommitIo) (plan : List PlannedFile)
    (requestId : Text) (world : World) : AppResult (List MutationRecord) → World → Prop
  | writeFailed {item : PlannedFile} {error : IoError} {report : CompensationReport} {disk : Disk}
      {markers : Markers}
      (stopped : (plan.dropWhile io.writes).head? = some item)
      (described : report.Describes io (io.written plan))
      (files : disk.fileAt = io.compensated (io.written plan) world.disk.fileAt) :
      CommitOutcome ws io plan requestId world
        (.error (.withDetails
          (if report.manualRecoveryRequired then .partialCommit else .atomicWriteFailed)
          error.message
          (.commit
            { failedPath := some item.path.text
              completedBeforeFailure := (io.written plan).map fun item => item.path.text
              restoredPaths := report.restoredPaths
              compensationFailures := report.compensationFailures
              manualRecoveryRequired := report.manualRecoveryRequired
              compensationRefreshError := none })))
        ⟨disk, world.state.withMarkers markers⟩
  | refreshFailed {error : AppError} {report : CompensationReport} {written restored : Disk}
      {refreshed compensated : Reconciled} {ledger : ChangeLedger} {markers : Markers}
      (complete : ∀ item ∈ plan, io.writes item = true)
      (at_write : written = io.writtenDisk plan world)
      (at_restore : restored = io.restoredDisk plan world)
      (writes : written.fileAt = applyAll (writtenContents plan) world.disk.fileAt)
      (fails : ¬∀ path ∈ planPaths plan, ws.readable written io.faults path = true)
      (described : report.Describes io plan)
      (files : restored.fileAt = io.compensated plan world.disk.fileAt)
      (refresh : refreshed = world.state.shared.withIndex (ws.refreshedIndex written io.faults
        (io.order.run (planPaths plan)) world.state.shared.index))
      (compensation : compensated = refreshed.withIndex (ws.refreshedIndex restored
        io.compensateFaults (io.compensateOrder.run (planPaths plan)) refreshed.index))
      (pending : ledger =
        if ∀ path ∈ planPaths plan, ws.readable restored io.compensateFaults path = true then
          { world.state.ledger with internalWrites := markers }
        else { world.state.ledger with internalWrites := markers }.markPending (planPaths plan)) :
      CommitOutcome ws io plan requestId world
        (.error (.withDetails
          (if report.manualRecoveryRequired then .partialCommit else .indexRefreshFailed)
          error.display
          (.commit
            { failedPath := none
              completedBeforeFailure := plan.map fun item => item.path.text
              restoredPaths := report.restoredPaths
              compensationFailures := report.compensationFailures
              manualRecoveryRequired := report.manualRecoveryRequired
              compensationRefreshError := report.compensationRefreshError })))
        ⟨restored, compensated, world.state.seen ++ [refreshed, compensated], ledger⟩
  | committed {written : Disk} {refreshed published : Reconciled} {markers : Markers}
      (complete : ∀ item ∈ plan, io.writes item = true)
      (writes : written.fileAt = applyAll (writtenContents plan) world.disk.fileAt)
      (reads : ∀ path ∈ planPaths plan, ws.readable written io.faults path = true)
      (refresh : refreshed = world.state.shared.withIndex (ws.refreshedIndex written io.faults
        (io.order.run (planPaths plan)) world.state.shared.index))
      (publish : published =
        ((refreshed.applyRepoStatus io.status).2.bumpGeneration).recomputeSnapshot ws) :
      CommitOutcome ws io plan requestId world
        (.ok (plan.map (ws.commitRecord io requestId (world.state.shared.generation + 1))))
        ⟨written, published, world.state.seen ++ [published],
          { world.state.ledger with internalWrites := markers }.record
            (plan.map (ws.commitRecord io requestId (world.state.shared.generation + 1)))⟩

namespace Workspace

variable (ws : Workspace)

theorem commitPlan_outcome (io : CommitIo) (plan : List PlannedFile) (requestId : Text)
    (world : World) :
    CommitOutcome ws io plan requestId world (ws.commitPlan io plan requestId world).1
      (ws.commitPlan io plan requestId world).2 := by
  have failure := writePlan_failure io plan (.new plan) world
  have completed := writePlan_completed io plan world
  have files := writePlan_fileAt io plan (.new plan) world
  have at_write : (writePlan io plan (.new plan) world).2.2.disk = io.writtenDisk plan world := rfl
  obtain ⟨markers, state⟩ := writePlan_state io plan (.new plan) world
  rw [commitPlan]
  revert failure completed files at_write state
  generalize writePlan io plan (.new plan) world = outcome
  rcases outcome with ⟨stop, progress, disk, state⟩
  intro failure completed files at_write state
  simp only at failure completed files at_write state
  subst state
  cases stop with
  | some stop =>
    obtain ⟨item, error⟩ := stop
    obtain ⟨report, restored, later, eq, described, -, put⟩ :=
      ws.compensate_without_refresh io progress.completed ⟨disk, world.state.withMarkers markers⟩
    simp only [CommitProgress.completedPaths, completed] at eq described put ⊢
    rw [eq]
    exact .writeFailed failure.symm described (by rw [put, files]; rfl)
  | none =>
    have complete : ∀ item ∈ plan, io.writes item = true := by
      simpa [List.dropWhile_eq_nil_iff] using failure.symm
    have all : io.written plan = plan := List.takeWhile_eq_self_iff.mpr complete
    rw [all] at completed files
    have index := ws.refreshPaths_snd disk io.faults (io.order.run (planPaths plan))
      world.state.shared.index
    have reads := ws.refreshPaths_isOk disk io.faults (io.order.run (planPaths plan))
      world.state.shared.index
    simp only [(io.order.perm _).mem_iff] at reads
    simp only [ReconciledState.update, publishCommit, ReconciledState.withMarkers_shared, index]
    cases refreshed : (ws.refreshPaths disk io.faults (io.order.run (planPaths plan))
        world.state.shared.index).1 with
    | ok changed =>
      rw [refreshed] at reads
      exact .committed complete files (reads.mp rfl) rfl rfl
    | error error =>
      rw [refreshed] at reads
      have fails : ¬∀ path ∈ planPaths plan, ws.readable disk io.faults path = true := by
        rw [← reads]
        exact Bool.false_ne_true
      have nonempty : progress.completed ≠ [] := by
        rw [completed]
        rintro rfl
        exact fails (by simp [planPaths])
      simp only [failedAfterApply]
      obtain ⟨report, restored, later, eq, described, put⟩ :=
        ws.compensate_with_refresh io nonempty ⟨disk, _, _, _⟩
      simp only [CommitProgress.completedPaths, completed] at eq described put ⊢
      rw [eq]
      have at_restore : restored = io.restoredDisk plan world := by
        rw [put, at_write, CommitIo.restoredDisk]
      have put_back : restored.fileAt = io.compensated plan world.disk.fileAt := by
        rw [put, restoreEach_fileAt, files]
        rfl
      have outcome := @CommitOutcome.refreshFailed ws io plan requestId world error report disk
        restored _ _ _ later complete at_write at_restore files fails described put_back rfl rfl rfl
      rwa [List.append_cons] at outcome

end Workspace

end CodeWeave
