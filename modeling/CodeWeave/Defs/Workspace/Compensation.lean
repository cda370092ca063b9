import CodeWeave.Defs.Workspace.CommitLaws

namespace CodeWeave

open Overwrite

/-- A plan no two of whose entries name the same file. -/
def Distinct (plan : List PlannedFile) : Prop :=
  (plan.map fun item => item.path.components).Nodup

def Holds (disk : Disk) (item : PlannedFile) (content : Option Text) : Prop :=
  disk.fileAt item.path.components = content.map Text.bytes

instance (plan : List PlannedFile) : Decidable (Distinct plan) :=
  inferInstanceAs (Decidable (List.Nodup _))

instance (disk : Disk) (item : PlannedFile) (content : Option Text) :
    Decidable (Holds disk item content) :=
  inferInstanceAs (Decidable (_ = _))

theorem Distinct.eq_of_components {plan : List PlannedFile} (distinct : Distinct plan)
    {first second : PlannedFile} (hf : first ∈ plan) (hs : second ∈ plan)
    (same : first.path.components = second.path.components) : first = second :=
  List.inj_on_of_nodup_map distinct hf hs same

theorem Distinct.sublist {plan items : List PlannedFile} (distinct : Distinct plan)
    (sub : items.Sublist plan) : Distinct items :=
  List.Nodup.sublist (sub.map _) distinct

theorem Distinct.perm {plan items : List PlannedFile} (distinct : Distinct plan)
    (perm : items.Perm plan) : Distinct items :=
  (perm.map _).nodup_iff.mpr distinct

namespace CommitIo

variable (io : CommitIo)

theorem written_sublist (plan : List PlannedFile) : (io.written plan).Sublist plan :=
  List.takeWhile_sublist io.writes

@[simp] theorem mem_restored {completed : List PlannedFile} {item : PlannedFile} :
    item ∈ io.restored completed ↔ item ∈ completed ∧ io.restores item = true := by
  simp [restored]

@[simp] theorem mem_unrestored {completed : List PlannedFile} {item : PlannedFile} :
    item ∈ io.unrestored completed ↔ item ∈ completed ∧ io.restores item = false := by
  simp [unrestored]

theorem restored_append_unrestored (completed : List PlannedFile) :
    (io.restored completed ++ io.unrestored completed).Perm completed :=
  (List.filter_append_perm io.restores completed.reverse).trans completed.reverse_perm

end CommitIo

theorem applyAll_contents {items : List PlannedFile} (distinct : Distinct items)
    (content : PlannedFile → Option Text) {item : PlannedFile} (mem : item ∈ items)
    (files : List Text → Option ByteArray) :
    applyAll (items.map fun item => contentPatch item.path (content item)) files
      item.path.components = (content item).map Text.bytes := by
  apply applyAll_settled
  · intro patch inPatches
    obtain ⟨other, inItems, rfl⟩ := List.mem_map.mp inPatches
    by_cases same : item.path.components = other.path.components
    · have eq := distinct.eq_of_components mem inItems same
      exact .inr (by rw [← eq, contentPatch_self])
    · exact .inl (contentPatch_other same _)
  · exact ⟨_, List.mem_map.mpr ⟨item, mem, rfl⟩, contentPatch_self item.path (content item)⟩

theorem applyAll_contents_other {items : List PlannedFile} (content : PlannedFile → Option Text)
    {components : List Text} (other : ∀ item ∈ items, components ≠ item.path.components)
    (files : List Text → Option ByteArray) :
    applyAll (items.map fun item => contentPatch item.path (content item)) files components =
      files components := by
  apply applyAll_untouched
  intro patch inPatches
  obtain ⟨item, inItems, rfl⟩ := List.mem_map.mp inPatches
  exact contentPatch_other (other item inItems) _

section

variable {io : CommitIo} {plan completed : List PlannedFile} {item : PlannedFile}
  (files : List Text → Option ByteArray)

theorem compensated_restored (distinct : Distinct completed) (mem : item ∈ completed)
    (restores : io.restores item = true) :
    io.compensated completed files item.path.components = item.before.map Text.bytes := by
  have sub : Distinct (io.restored completed) :=
    (distinct.perm completed.reverse_perm).sublist List.filter_sublist
  exact applyAll_contents sub PlannedFile.before ((io.mem_restored).mpr ⟨mem, restores⟩) _

theorem compensated_unrestored (distinct : Distinct completed) (mem : item ∈ completed)
    (fails : io.restores item = false) :
    io.compensated completed files item.path.components = item.after.map Text.bytes := by
  rw [CommitIo.compensated, restoredContents, applyAll_contents_other]
  · exact applyAll_contents distinct PlannedFile.after mem files
  · intro other inRestored same
    have both := (io.mem_restored).mp inRestored
    have eq := distinct.eq_of_components mem both.1 same
    rw [eq, both.2] at fails
    cases fails

theorem compensated_other (distinct : Distinct plan) (sub : completed.Sublist plan)
    (mem : item ∈ plan) (not_completed : item ∉ completed) :
    io.compensated completed files item.path.components = files item.path.components := by
  have other : ∀ done ∈ completed, item.path.components ≠ done.path.components := by
    intro done inCompleted same
    have eq := distinct.eq_of_components mem (sub.subset inCompleted) same
    exact not_completed (by rwa [eq])
  rw [CommitIo.compensated, restoredContents, applyAll_contents_other, writtenContents,
    applyAll_contents_other _ other]
  intro restored inRestored
  exact other restored ((io.mem_restored).mp inRestored).1

end

structure CommitDetails.Accurate (details : CommitDetails) (plan : List PlannedFile) (disk : Disk) :
    Prop where
  failures : details.compensationFailures ≠ []
  split : (details.restoredPaths ++ details.compensationFailures.map Prod.fst).Perm
    details.completedBeforeFailure
  disjoint : ∀ path ∈ details.restoredPaths, path ∉ details.compensationFailures.map Prod.fst
  restored : ∀ item ∈ plan, item.path.text ∈ details.restoredPaths → Holds disk item item.before
  failed : ∀ item ∈ plan, item.path.text ∈ details.compensationFailures.map Prod.fst →
    Holds disk item item.after
  others : ∀ item ∈ plan, item.path.text ∉ details.completedBeforeFailure →
    Holds disk item item.before
  planned : ∀ path ∈ details.completedBeforeFailure, ∃ item ∈ plan, item.path.text = path

section

variable {io : CommitIo} {plan completed : List PlannedFile} {report : CompensationReport}

theorem CompensationReport.Describes.perm (described : report.Describes io completed) :
    (report.restoredPaths ++ report.compensationFailures.map Prod.fst).Perm
      (completed.map fun item => item.path.text) := by
  rw [described.restored, described.failed, ← List.map_append]
  exact (io.restored_append_unrestored completed).map _

theorem Distinct.eq_of_text (distinct : Distinct plan) {first second : PlannedFile}
    (hf : first ∈ plan) (hs : second ∈ plan) (same : first.path.text = second.path.text) :
    first = second :=
  distinct.eq_of_components hf hs (congrArg segments same)

theorem Distinct.text_mem_map (distinct : Distinct plan) (sub : ∀ item ∈ completed, item ∈ plan)
    {item : PlannedFile} (mem : item ∈ plan) :
    item.path.text ∈ completed.map (fun item => item.path.text) ↔ item ∈ completed := by
  constructor
  · intro inTexts
    obtain ⟨other, inCompleted, same⟩ := List.mem_map.mp inTexts
    rwa [distinct.eq_of_text mem (sub other inCompleted) same.symm]
  · intro inCompleted
    exact List.mem_map.mpr ⟨item, inCompleted, rfl⟩

theorem CompensationReport.Describes.accurate (described : report.Describes io completed)
    (distinct : Distinct plan) (sub : completed.Sublist plan) {world : World} {disk : Disk}
    (before : ∀ item ∈ plan, Holds world.disk item item.before)
    (files : disk.fileAt = io.compensated completed world.disk.fileAt)
    (unrestored : io.unrestored completed ≠ []) (failedPath : Option Text)
    (refreshError : Option (ErrorCode × String)) :
    CommitDetails.Accurate
      { failedPath := failedPath
        completedBeforeFailure := completed.map fun item => item.path.text
        restoredPaths := report.restoredPaths
        compensationFailures := report.compensationFailures
        manualRecoveryRequired := report.manualRecoveryRequired
        compensationRefreshError := refreshError } plan disk where
  failures := by
    intro none_failed
    have := described.failed
    rw [show report.compensationFailures = [] from none_failed] at this
    exact unrestored (List.map_eq_nil_iff.mp this.symm)
  split := described.perm
  disjoint := by
    intro path inRestored inFailed
    simp only [described.restored, described.failed] at inRestored inFailed
    obtain ⟨first, hf, rfl⟩ := List.mem_map.mp inRestored
    obtain ⟨second, hs, same⟩ := List.mem_map.mp inFailed
    have restored := io.mem_restored.mp hf
    have failed := io.mem_unrestored.mp hs
    rw [distinct.eq_of_text (sub.subset failed.1) (sub.subset restored.1) same, restored.2] at failed
    cases failed.2
  restored := by
    intro item mem inRestored
    simp only [described.restored] at inRestored
    have subset : ∀ other ∈ io.restored completed, other ∈ plan :=
      fun other h => sub.subset (io.mem_restored.mp h).1
    have restored := io.mem_restored.mp ((distinct.text_mem_map subset mem).mp inRestored)
    rw [Holds, files]
    exact compensated_restored _ (distinct.sublist sub) restored.1 restored.2
  failed := by
    intro item mem inFailed
    simp only [described.failed] at inFailed
    have subset : ∀ other ∈ io.unrestored completed, other ∈ plan :=
      fun other h => sub.subset (io.mem_unrestored.mp h).1
    have failed := io.mem_unrestored.mp ((distinct.text_mem_map subset mem).mp inFailed)
    rw [Holds, files]
    exact compensated_unrestored _ (distinct.sublist sub) failed.1 failed.2
  others := by
    intro item mem not_completed
    rw [distinct.text_mem_map (fun other h => sub.subset h) mem] at not_completed
    rw [Holds, files, compensated_other _ distinct sub mem not_completed]
    exact before item mem
  planned := by
    intro path inCompleted
    obtain ⟨item, mem, rfl⟩ := List.mem_map.mp inCompleted
    exact ⟨item, sub.subset mem, rfl⟩

theorem holds_before_of_restored (distinct : Distinct plan) (sub : completed.Sublist plan)
    {world : World} {disk : Disk} (before : ∀ item ∈ plan, Holds world.disk item item.before)
    (files : disk.fileAt = io.compensated completed world.disk.fileAt)
    (unrestored : io.unrestored completed = []) {item : PlannedFile} (mem : item ∈ plan) :
    Holds disk item item.before := by
  rw [Holds, files]
  by_cases done : item ∈ completed
  · have restores : io.restores item = true := by
      by_contra fails
      have failed := io.mem_unrestored.mpr ⟨done, Bool.not_eq_true _ ▸ fails⟩
      simp [unrestored] at failed
    exact compensated_restored _ (distinct.sublist sub) done restores
  · rw [compensated_other _ distinct sub mem done]
    exact before item mem

end

/-- A failed commit is undone, or says exactly what it could not undo. -/
theorem commitPlan_undone_or_reported (ws : Workspace) (io : CommitIo) (plan : List PlannedFile)
    (requestId : Text) (world : World) (distinct : Distinct plan)
    (before : ∀ item ∈ plan, Holds world.disk item item.before) (error : AppError) (world' : World)
    (failed : ws.commitPlan io plan requestId world = (.error error, world')) :
    world'.state.shared.generation = world.state.shared.generation ∧
      world'.state.shared.snapshotId = world.state.shared.snapshotId ∧
      world'.state.ledger.events = world.state.ledger.events ∧
      ∃ details, error.details = some (.commit details) ∧
        (error.code = .atomicWriteFailed ∨ error.code = .indexRefreshFailed ∨
          error.code = .partialCommit) ∧
        (error.code = .atomicWriteFailed ∨ error.code = .indexRefreshFailed →
          ∀ item ∈ plan, Holds world'.disk item item.before) ∧
        (error.code = .partialCommit → details.Accurate plan world'.disk) ∧
        (details.manualRecoveryRequired = true ↔ error.code = .partialCommit) := by
  have outcome := ws.commitPlan_outcome io plan requestId world
  rw [failed] at outcome
  cases outcome with
  | @writeFailed item cause report disk markers stopped described files =>
    refine ⟨rfl, rfl, rfl, _, rfl, ?_⟩
    have sub := io.written_sublist plan
    by_cases manual : report.manualRecoveryRequired = true
    · have accurate := described.accurate distinct sub before files
        (described.manualRecoveryRequired.mp manual) (some item.path.text) none
      simpa [AppError.withDetails, manual] using accurate
    · have unrestored := described.manualRecoveryRequired.not.mp manual
      have undone : ∀ item ∈ plan, Holds disk item item.before := fun _ mem =>
        holds_before_of_restored distinct sub before files (not_not.mp unrestored) mem
      simpa [AppError.withDetails, manual] using undone
  | @refreshFailed cause report written restored refreshed compensated ledger markers complete
      at_write at_restore writes fails described files refresh compensation pending =>
    subst compensation refresh pending
    refine ⟨rfl, rfl, ?_, _, rfl, ?_⟩
    · simp only [apply_ite ChangeLedger.events, ChangeLedger.markPending, ite_self]
    · by_cases manual : report.manualRecoveryRequired = true
      · have accurate := described.accurate distinct (List.Sublist.refl plan) before files
          (described.manualRecoveryRequired.mp manual) none report.compensationRefreshError
        simpa [AppError.withDetails, manual] using accurate
      · have unrestored := described.manualRecoveryRequired.not.mp manual
        have undone : ∀ item ∈ plan, Holds restored item item.before := fun _ mem =>
          holds_before_of_restored distinct (List.Sublist.refl plan) before files
            (not_not.mp unrestored) mem
        simpa [AppError.withDetails, manual] using undone

namespace Sample

def pathA : RelPath := ⟨"a".toList, by decide, by decide, by decide⟩

def pathB : RelPath := ⟨"b".toList, by decide, by decide, by decide⟩

def twoFiles : List PlannedFile :=
  [⟨pathA, some "old".toList, some "old".toList, some "new".toList⟩,
    ⟨pathB, none, none, some "more".toList⟩]

def oldFile : World := World.opened .plain (Disk.holding [(["a".toList], "old".toList)])

def diskFull (path : RelPath) : Option IoError :=
  if path = pathB then some ⟨.other, "No space left on device"⟩ else none

-- The second write fails, and so does putting the first file back.
def stuck : CommitIo :=
  { CommitIo.calm with writeFault := diskFull, restoreFault := fun _ => diskFull pathB }

end Sample

open Sample in
theorem commitPlan_undone_or_reported_stuck :
    ∃ error details, (Workspace.plain.commitPlan stuck twoFiles [] oldFile).1 = .error error ∧
      error.details = some (.commit details) ∧
      details.Accurate twoFiles (Workspace.plain.commitPlan stuck twoFiles [] oldFile).2.disk := by
  obtain ⟨-, -, -, details, carries, -, -, accurate, -⟩ :=
    commitPlan_undone_or_reported Workspace.plain stuck twoFiles [] oldFile (by decide)
      (by decide) _ _ (Prod.ext rfl rfl)
  exact ⟨_, details, rfl, carries, accurate (by decide)⟩

end CodeWeave
