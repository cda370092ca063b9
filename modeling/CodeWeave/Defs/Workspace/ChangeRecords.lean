import CodeWeave.Defs.Workspace.CommitLaws
import CodeWeave.Defs.Workspace.System

namespace CodeWeave

open Runs

namespace ChangeLedger

theorem Distinct.observe {ws : Workspace} {disk : Disk} {ledger : ChangeLedger}
    (distinct : ledger.Distinct) (paths : List PathBuf) :
    (ledger.observe ws disk paths).Distinct := by
  rw [ChangeLedger.observe]
  induction paths generalizing ledger with
  | nil => exact distinct
  | cons path rest ih =>
    apply ih
    cases path with
    | outside text => exact distinct
    | below text =>
      simp only [observeOne]
      split
      · exact distinct
      · exact nodup_insertPath distinct _

theorem Distinct.markPending {ledger : ChangeLedger} (distinct : ledger.Distinct)
    (paths : List PathBuf) : (ledger.markPending paths).Distinct := by
  have general : ∀ (paths pending : List PathBuf), (pending.map PathBuf.key).Nodup →
      ((paths.foldl (fun pending path => insertPath path pending) pending).map PathBuf.key).Nodup := by
    intro paths
    induction paths with
    | nil => exact fun _ h => h
    | cons path rest ih => exact fun pending h => ih _ (nodup_insertPath h path)
  exact general paths ledger.pending distinct

end ChangeLedger

section

variable {ws : Workspace} {world : World}

theorem distinct_reconcileWith (io : ReconcileIo) (disk : Disk) {state : ReconciledState}
    (distinct : state.ledger.Distinct) :
    (ws.reconcileWith io disk state).2.ledger.Distinct := by
  have outcome := reconcileWith_outcome ws io disk state
  revert outcome
  generalize ws.reconcileWith io disk state = result
  cases result with
  | mk result later =>
  intro outcome
  cases outcome with
  | idle none_asked => exact distinct
  | failed asked fails => exact List.nodup_nil
  | quiet asked reads unchanged same => exact List.nodup_nil
  | published asked reads refreshed moved =>
    simp only
    split
    · exact List.nodup_nil
    · exact List.nodup_nil

theorem distinct_rescan (io : ScanIo) (status : AppResult RepoStatus) (disk : Disk)
    (state : ReconciledState) : (ws.rescan io status disk state).2.ledger.Distinct := by
  rw [Workspace.rescan]
  cases ws.scan disk io with
  | error error => exact List.nodup_nil
  | ok index => exact List.nodup_nil

theorem distinct_commitPlan (io : CommitIo) (plan : List PlannedFile) (requestId : Text)
    (distinct : world.state.ledger.Distinct) :
    (ws.commitPlan io plan requestId world).2.state.ledger.Distinct := by
  have outcome := ws.commitPlan_outcome io plan requestId world
  revert outcome
  generalize ws.commitPlan io plan requestId world = result
  cases result with
  | mk result later =>
  intro outcome
  cases outcome with
  | writeFailed stopped described files => exact distinct
  | committed complete writes reads refresh publish => exact distinct
  | @refreshFailed _ _ _ _ _ _ _ markers _ _ _ _ _ _ _ _ _ pending =>
    have marked : ChangeLedger.Distinct { world.state.ledger with internalWrites := markers } :=
      distinct
    simp only [pending]
    split
    · exact marked
    · exact marked.markPending _

theorem distinct_act (action : Action) (distinct : world.state.ledger.Distinct) :
    (ws.act action world).state.ledger.Distinct := by
  cases action with
  | disk disk => exact distinct
  | observe paths => exact distinct.observe paths
  | reconcile io => exact distinct_reconcileWith io world.disk distinct
  | rescan io status => exact distinct_rescan io status world.disk world.state
  | refreshStatus status => exact distinct
  | commit io plan requestId => exact distinct_commitPlan io plan requestId distinct
  | git mutation =>
    simp only [Workspace.act, Workspace.gitMutation]
    cases mutation with
    | stage ran status => cases ran <;> exact distinct
    | commit ran status => cases ran <;> exact distinct
    | restore ran io status =>
      cases ran with
      | error error => exact distinct
      | ok disk => exact distinct_rescan io status disk world.state

theorem distinct_reached {start : World} {actions : List Action} (opened : ws.Opened start)
    (run : Run ws.Step start actions world) : world.state.ledger.Distinct := by
  obtain ⟨disk, io, cache, index, status, -, state⟩ := opened
  refine run.invariant (fun world => world.state.ledger.Distinct) ?_ ?_
  · intro world action later distinct step
    rw [step]
    exact distinct_act action distinct
  · rw [state]
    exact List.nodup_nil

end

/-- Where indexed hashes have moved, records of the new generation have been appended to
the log, one of them for each path whose hash is another one than before, or gone.  The log
keeps the newest of all its records. -/
def Recorded (old new : ReconciledState) : Prop :=
  new.shared.index.hashAt ≠ old.shared.index.hashAt → ∃ appended,
    new.ledger.events = ChangeLedger.bounded (old.ledger.events ++ appended) ∧
      (∀ record ∈ appended, record.generation = new.shared.generation) ∧
      old.shared.generation < new.shared.generation ∧
      ∀ path, new.shared.index.hashAt path ≠ old.shared.index.hashAt path →
        ∃ record ∈ appended, record.path = path ∧
          record.afterHash = new.shared.index.hashAt path

/-- Every path whose hash refreshing the queued paths moves is queued itself, without
a live marker of an internal write. -/
def Attributed (ws : Workspace) (disk : Disk) (state : ReconciledState) (io : ReconcileIo) : Prop :=
  ∀ path ∈ state.ledger.pending, ws.refreshes disk path = true →
    ∀ key, (ws.effectOf disk io.faults path).Moves state.shared.index.hashAt key →
      ∃ own ∈ state.ledger.pending, ws.refreshes disk own = true ∧ own.relative = key ∧
        unmarked state.ledger.internalWrites io.now own = true

section

variable {ws : Workspace} {io : ReconcileIo} {disk : Disk} {state : ReconciledState}

theorem recorded_of_hashAt {new : ReconciledState}
    (same : new.shared.index.hashAt = state.shared.index.hashAt) : Recorded state new :=
  fun moved => absurd same moved

theorem afterHash_externalRecord (index : CodeIndex) (generation : Nat) (path : PathBuf) :
    (io.externalRecord index generation path.relative).afterHash = index.hashAt path.relative := by
  simp only [ReconcileIo.externalRecord, CodeIndex.get]
  rw [Workspace.normalizePathText_relative, CodeIndex.hashAt, CodeIndex.lookup]

theorem externalRecord_mem (distinct : state.ledger.Distinct)
    (attributed : Attributed ws disk state io) {changed : List Text}
    (refreshed : (ws.refreshPaths disk io.faults (io.paths ws disk state.ledger)
      state.shared.index).1 = .ok changed) {path : Text}
    (moved : (refreshedState ws io disk state).index.hashAt path ≠
      state.shared.index.hashAt path) :
    ∃ own : PathBuf, own.relative = path ∧
      io.externalRecord (publishedState ws io disk state changed).index
        (publishedState ws io disk state changed).generation path ∈
          externalRecords ws io disk state changed := by
  have reported : path ∈ changed := by
    apply ws.hash_changed_of_refreshPaths refreshed
    rw [ws.refreshPaths_snd]
    exact moved
  obtain ⟨cause, gone_through, moves⟩ := ws.moves_of_hashAt moved
  have queued := ReconcileIo.mem_paths.mp ((List.takeWhile_subset _) gone_through)
  obtain ⟨own, inPending, refreshes, names, live⟩ :=
    attributed cause queued.1 queued.2 path moves
  have external : path ∈ (state.ledger.drain ws disk io.now).external :=
    (ChangeLedger.mem_drain_external ws disk io.now distinct path).mpr
      ⟨own, inPending, refreshes, live, names⟩
  refine ⟨own, names, List.mem_map.mpr ⟨path, ?_, rfl⟩⟩
  exact List.mem_filter.mpr ⟨external, decide_eq_true reported⟩

theorem recorded_reconcileWith (distinct : state.ledger.Distinct)
    (attributed : Attributed ws disk state io)
    (ok : (ws.reconcileWith io disk state).1.isOk = true) :
    Recorded state (ws.reconcileWith io disk state).2 := by
  have outcome := reconcileWith_outcome ws io disk state
  revert outcome ok
  generalize ws.reconcileWith io disk state = result
  cases result with
  | mk result later =>
  intro ok outcome
  cases outcome with
  | idle none_asked => exact recorded_of_hashAt rfl
  | failed asked fails => cases ok
  | quiet asked reads unchanged same =>
    apply recorded_of_hashAt
    calc
      _ = (refreshedState ws io disk state).index.hashAt :=
        congrArg CodeIndex.hashAt (Reconciled.consultStatus_index _ _ _)
      _ = _ := hashAt_of_unchanged unchanged
  | @published changed asked reads refreshed moved =>
    intro someMoved
    have index := publishedState_index ws io disk state changed
    have generation := publishedState_generation ws io disk state changed
    have recorded : ∀ path, (refreshedState ws io disk state).index.hashAt path ≠
        state.shared.index.hashAt path → ∃ record ∈ externalRecords ws io disk state changed,
          record.path = path ∧ record.afterHash =
            (publishedState ws io disk state changed).index.hashAt path := by
      intro path pathMoved
      obtain ⟨own, names, mem⟩ := externalRecord_mem distinct attributed refreshed pathMoved
      refine ⟨_, mem, rfl, ?_⟩
      rw [← names]
      exact afterHash_externalRecord _ _ own
    simp only [index] at someMoved
    obtain ⟨path, pathMoved⟩ := Function.ne_iff.mp someMoved
    obtain ⟨record, mem, -⟩ := recorded path pathMoved
    refine ⟨externalRecords ws io disk state changed, ?_, ?_, ?_, ?_⟩
    · simp only [if_neg (List.ne_nil_of_mem mem)]
      simp only [ChangeLedger.recordExternal, ChangeLedger.record, ChangeLedger.drained]
    · intro record mem
      obtain ⟨path, -, rfl⟩ := List.mem_map.mp mem
      rfl
    · simp only [generation]
      exact Nat.lt_succ_self _
    · intro path pathMoved
      simp only [index] at pathMoved
      exact recorded path pathMoved

end

/-- From any reachable state, a reconcile that succeeds leaves a record of each
indexed change it makes, where each is of a queued path without a live marker. -/
theorem reconcile_records_changes {ws : Workspace} {start world : World} {actions : List Action}
    (opened : ws.Opened start) (run : Run ws.Step start actions world) (io : ReconcileIo)
    (attributed : Attributed ws world.disk world.state io)
    (ok : (ws.reconcileWith io world.disk world.state).1.isOk = true) :
    Recorded world.state (ws.reconcileWith io world.disk world.state).2 :=
  recorded_reconcileWith (distinct_reached opened run) attributed ok

theorem moves_own {ws : Workspace} {disk : Disk} {faults : ReadFaults} {path : PathBuf}
    {hashes : Text → Option ContentHash} {key : Text}
    (inserts : (ws.effectOf disk faults path).entry.isSome = true)
    (moves : (ws.effectOf disk faults path).Moves hashes key) : path.relative = key := by
  cases effect : ws.effectOf disk faults path with
  | skip => rw [effect] at inserts; cases inserts
  | removeTree top => rw [effect] at inserts; cases inserts
  | insert entry =>
    rw [effect] at moves
    rw [moves.1, ws.readEntry_path (ws.effectOf_insert effect)]

namespace Sample

def oldNote : World := .opened .plain (Disk.holding [(["d".toList, "x".toList], "old".toList)])

def editedNote : World :=
  Workspace.plain.act (.observe [.below "d/x".toList])
    (Workspace.plain.act (.disk (Disk.holding [(["d".toList, "x".toList], "new".toList)])) oldNote)

def removedNote : World :=
  Workspace.plain.act (.observe [.below "d".toList])
    (Workspace.plain.act (.disk (Disk.holding [])) oldNote)

theorem opened_oldNote : Workspace.plain.Opened oldNote := Workspace.plain.opened_opened (by decide)

end Sample

open Sample in
theorem reconcile_records_changes_editing :
    (Workspace.plain.reconcileWith .calm editedNote.disk editedNote.state).2.shared.index.hashAt
        "d/x".toList ≠ editedNote.state.shared.index.hashAt "d/x".toList ∧
      Recorded editedNote.state
        (Workspace.plain.reconcileWith .calm editedNote.disk editedNote.state).2 := by
  have run : Run Workspace.plain.Step oldNote [_, _] editedNote := .snoc (.snoc (.nil _) rfl) rfl
  have attributed : Attributed .plain editedNote.disk editedNote.state .calm := by
    intro path inPending refreshes key moves
    have inserts : ∀ path ∈ editedNote.state.ledger.pending,
        (Workspace.plain.effectOf editedNote.disk ReconcileIo.calm.faults path).entry.isSome = true ∧
          unmarked editedNote.state.ledger.internalWrites ReconcileIo.calm.now path = true := by
      decide
    exact ⟨path, inPending, refreshes, moves_own (inserts path inPending).1 moves,
      (inserts path inPending).2⟩
  exact ⟨by decide, reconcile_records_changes opened_oldNote run .calm attributed (by decide)⟩

-- The file below the directory leaves the index without a record.
open Sample in
theorem reconcile_omits_record :
    ¬∀ start world actions io, Workspace.plain.Opened start →
      Run Workspace.plain.Step start actions world →
      (Workspace.plain.reconcileWith io world.disk world.state).1.isOk = true →
      Recorded world.state (Workspace.plain.reconcileWith io world.disk world.state).2 := by
  intro all
  have run : Run Workspace.plain.Step oldNote [_, _] removedNote := .snoc (.snoc (.nil _) rfl) rfl
  have gone : (Workspace.plain.reconcileWith .calm removedNote.disk
      removedNote.state).2.shared.index.hashAt "d/x".toList ≠
        removedNote.state.shared.index.hashAt "d/x".toList := by
    decide
  obtain ⟨appended, log, -, -, recorded⟩ := all _ _ _ .calm opened_oldNote run (by decide)
    fun same => gone (congrFun same _)
  obtain ⟨record, mem, -⟩ := recorded _ gone
  have empty : (Workspace.plain.reconcileWith .calm removedNote.disk removedNote.state).2.ledger.events
      = [] := by decide
  rw [empty] at log
  have dropped : appended.length ≤ appended.length - maxMutationEvents :=
    List.drop_eq_nil_iff.mp log.symm
  have some_appended := List.length_pos_of_mem mem
  rw [maxMutationEvents] at dropped
  omega

end CodeWeave
