import CodeWeave.Defs.Locking.Calls

namespace CodeWeave

namespace Locking

open Locks Runs
open Locking.ReconciledState StateWriter Locking.ChangeLedger Locking.RunTable
  Locking.ProcessGroup Locking.BashSupervisor Locking.Workspace

def Below (level : Nat) (held : List (Lock × Mode)) : Prop :=
  ∀ taken ∈ held, taken.1.level < level

abbrev Ordered (held : List (Lock × Mode)) (p : Skeleton) : Prop :=
  Orderly Lock.level Act.needs held p

variable {held : List (Lock × Mode)} {level : Nat} {lock : Lock} {m : Mode} {p : Skeleton}
  {ps : List Skeleton} {runId language : Text}

@[simp] theorem below_nil : Below level [] := fun _ mem => absurd mem List.not_mem_nil

@[simp] theorem below_cons :
    Below level ((lock, m) :: held) ↔ lock.level < level ∧ Below level held :=
  List.forall_mem_cons

theorem Below.mono {level' : Nat} (below : Below level held) (le : level ≤ level') :
    Below level' held := fun taken mem => Nat.lt_of_lt_of_le (below taken mem) le

@[simp] theorem ordered_attempt : Ordered held attempt := ⟨trivial, trivial⟩

@[simp] theorem ordered_leave : Ordered held .leave := trivial

@[simp] theorem ordered_skip : Ordered held .skip := trivial

@[simp] theorem ordered_act {a : Act} : Ordered held (.act a) ↔ a.needs ⊆ held := Iff.rfl

@[simp] theorem ordered_maybe : Ordered held (maybe p) ↔ Ordered held p :=
  and_iff_left trivial

@[simp] theorem ordered_either {q : Skeleton} :
    Ordered held (.either p q) ↔ Ordered held p ∧ Ordered held q := Iff.rfl

@[simp] theorem ordered_any {body : Text → Skeleton} :
    Ordered held (.any body) ↔ ∀ name, Ordered held (body name) := Iff.rfl

@[simp] theorem ordered_many : Ordered held (.many p) ↔ Ordered held p := Iff.rfl

@[simp] theorem ordered_call : Ordered held (.call p) ↔ Ordered held p := Iff.rfl

@[simp] theorem ordered_hold :
    Ordered held (.hold lock m p) ↔ Below lock.level held ∧ Ordered ((lock, m) :: held) p :=
  Iff.rfl

@[simp] theorem ordered_inOrder : Ordered held (inOrder ps) ↔ ∀ p ∈ ps, Ordered held p := by
  induction ps with
  | nil => simp [inOrder]
  | cons p ps ih =>
    rw [inOrder, List.forall_mem_cons, ← ih]
    rfl

@[simp] theorem ordered_oneOf : Ordered held (oneOf ps) ↔ ∀ p ∈ ps, Ordered held p := by
  induction ps with
  | nil => simp [oneOf]
  | cons p ps ih =>
    rw [oneOf, List.forall_mem_cons, ← ih]
    rfl

@[simp] theorem ordered_locked : Ordered held (locked lock) ↔ Below lock.level held :=
  and_iff_left trivial

attribute [simp] Lock.level Act.needs

-- The levels below which each function may be called, and the locks it is called under.

theorem ordered_read (below : Below 8 held) (body : Ordered ((.state, .shared) :: held) p) :
    Ordered held (read p) := by
  simp [ReconciledState.read, below, body]

theorem ordered_view (below : Below 8 held) : Ordered held (read .skip) :=
  ordered_read below trivial

theorem ordered_update (below : Below 8 held) (writer : (.writer, .exclusive) ∈ held) :
    Ordered held update := by
  simp [update, below, writer]

theorem ordered_writer (below : Below 7 held) (body : Ordered ((.writer, .exclusive) :: held) p) :
    Ordered held (writer p) := ⟨below, body⟩

theorem ordered_record (below : Below 9 held) (writer : (.writer, .exclusive) ∈ held) :
    Ordered held record := by
  simp [record, below, writer]

theorem ordered_drainPending (below : Below 9 held) (writer : (.writer, .exclusive) ∈ held) :
    Ordered held drainPending := by
  simp [drainPending, ChangeLedger.consumeInternal, below, writer]

theorem ordered_insert (below : Below 9 held) : Ordered held insert := by
  simp [RunTable.insert, someRecord, below]

theorem ordered_execute (below : Below 9 held) (permit : (.runPermit, .exclusive) ∈ held) :
    Ordered held (execute runId) := by
  simp [execute, terminate, below, permit]

theorem ordered_status (below : Below 9 held) : Ordered held (status runId) := by
  simp [status, statusWithLimit, RunTable.get, below]

theorem ordered_startPrepared (below : Below 6 held) : Ordered held (startPrepared runId) := by
  have leaf : Below 9 held := below.mono (by decide)
  have inside : Below 9 ((.runPermit, .exclusive) :: held) := by simp [leaf]
  simp [startPrepared, finalizeRunError, AbandonGuard.drop, below, leaf, ordered_insert inside,
    ordered_execute inside, ordered_status leaf]

theorem ordered_start (below : Below 6 held) : Ordered held (start runId) := by
  have leaf : Below 9 held := below.mono (by decide)
  simp [start, activeRunView, records, someRecord, leaf, ordered_startPrepared below]

theorem ordered_queue (below : Below 9 held) : Ordered held (queue runId) := by
  simp [queue, ordered_insert below, ordered_status below]

theorem ordered_reconcileWith (below : Below 8 held) (writer : (.writer, .exclusive) ∈ held) :
    Ordered held reconcileWith := by
  have leaf : Below 9 held := below.mono (by decide)
  simp [reconcileWith, recordExternal, leaf, ordered_drainPending leaf writer,
    ordered_update below writer, ordered_record leaf writer]

theorem ordered_reconcilePending (below : Below 7 held) : Ordered held reconcilePending := by
  have inside : Below 8 ((.writer, .exclusive) :: held) := by simp [below.mono]
  simp [reconcilePending, ordered_writer below (ordered_reconcileWith inside (by simp))]

theorem ordered_reconcilePendingAsync (below : Below 7 held) :
    Ordered held reconcilePendingAsync := by
  simp [reconcilePendingAsync, ordered_reconcilePending below, below.mono]

theorem ordered_reconcileAfterPoll (below : Below 7 held) : Ordered held reconcileAfterPoll := by
  simp [reconcileAfterPoll, ordered_reconcilePendingAsync below, below.mono]

theorem ordered_compensate (below : Below 8 held) (writer : (.writer, .exclusive) ∈ held)
    (gate : (.gate, .exclusive) ∈ held) : Ordered held compensate := by
  simp [compensate, recordInternal, markPending, below.mono, writer, gate,
    ordered_update below writer]

theorem ordered_commitPlan (below : Below 8 held) (writer : (.writer, .exclusive) ∈ held)
    (gate : (.gate, .exclusive) ∈ held) : Ordered held commitPlan := by
  have leaf : Below 9 held := below.mono (by decide)
  simp [commitPlan, failedAfterApply, recordInternal, forgetInternal, leaf, writer, gate,
    ordered_view below, ordered_update below writer, ordered_record leaf writer,
    ordered_compensate below writer gate]

theorem ordered_prepareEdit (below : Below 7 held) (gate : (.gate, .exclusive) ∈ held) :
    Ordered held prepareEdit := by
  have inside : Below 8 ((.writer, .exclusive) :: held) := by simp [below.mono]
  have writer : (.writer, .exclusive) ∈ (Lock.writer, Mode.exclusive) :: held := by simp
  refine ordered_writer below ?_
  simp [ordered_reconcileWith inside writer, ordered_view inside,
    ordered_read inside ordered_attempt, ordered_commitPlan inside writer (.tail _ gate)]

theorem ordered_runEditValidation (below : Below 6 held) (gate : (.gate, .exclusive) ∈ held) :
    Ordered held runEditValidation := by
  simp [runEditValidation, Workspace.spawnPendingValidation, gate, ordered_start below,
    ordered_queue (below.mono (by decide))]

theorem ordered_codeEdit (below : Below 5 held) : Ordered held codeEdit := by
  have inside : Below 6 ((.gate, .exclusive) :: held) := by simp [below.mono]
  simp [codeEdit, exclusive, below, ordered_prepareEdit (inside.mono (by decide)),
    ordered_runEditValidation inside, ordered_reconcilePendingAsync (below.mono (by decide)),
    ordered_view (below.mono (by decide))]

theorem ordered_rescan (below : Below 7 held) : Ordered held rescan := by
  have inside : Below 8 ((.writer, .exclusive) :: held) := by simp [below.mono]
  refine ordered_writer below ?_
  simp [clearPending, below.mono, ordered_update inside]

theorem ordered_refreshRepoStatus (below : Below 7 held) :
    Ordered held (writer (inOrder [refreshRepoStatus, attempt, read .skip])) ∧
      Ordered held (writer refreshRepoStatus) := by
  have inside : Below 8 ((.writer, .exclusive) :: held) := by simp [below.mono]
  have updates : Ordered ((.writer, .exclusive) :: held) refreshRepoStatus :=
    ordered_update inside (by simp)
  exact ⟨ordered_writer below (by simp [updates, ordered_view inside]),
    ordered_writer below updates⟩

theorem ordered_gitArm (below : Below 7 held) {action : GitAction}
    (gate : action.isMutating → (.gate, .exclusive) ∈ held) : Ordered held (gitArm action) := by
  have view : Ordered held (read .skip) := ordered_view (below.mono (by decide))
  cases action with
  | diff | status | preflight | log | «show» | blame | push =>
    simp [gitArm, gitDiff, view, ordered_refreshRepoStatus below]
  | stage | commit | restore =>
    simp [gitArm, gitMutation, gate rfl, ordered_refreshRepoStatus below, ordered_rescan below]

theorem ordered_gitBlocking (below : Below 7 held) {action : GitAction}
    (gate : action.isMutating → (.gate, .exclusive) ∈ held) :
    Ordered held (gitBlocking action) := by
  simp [gitBlocking, ordered_reconcilePending below, ordered_gitArm below gate,
    ordered_view (below.mono (by decide))]

theorem ordered_git (below : Below 5 held) (action : GitAction) :
    Ordered held (git action) := by
  rw [git]
  split
  · exact ⟨below, ordered_gitBlocking (by simp [below.mono]) fun _ => by simp⟩
  · next reads =>
    exact ordered_gitBlocking (below.mono (by decide)) fun mutating => absurd mutating reads

theorem ordered_attributeRunChanges (below : Below 8 held) :
    Ordered held (attributeRunChanges runId) := by
  simp [attributeRunChanges, changeBaseline, changeWindow, freezeChanges, attributeSince,
    RunTable.get, ordered_view below, below.mono]

theorem ordered_run (below : Below 6 held) : Ordered held run := by
  have leaf : Below 9 held := below.mono (by decide)
  simp [run, setChangeBaseline, changeBaseline, BashSupervisor.outputStream, cancel, terminate,
    RunTable.get, leaf, ordered_reconcilePendingAsync (below.mono (by decide)),
    ordered_reconcileAfterPoll (below.mono (by decide)), ordered_start below, ordered_status leaf,
    ordered_attributeRunChanges (below.mono (by decide)), ordered_view (below.mono (by decide))]

theorem ordered_snapshotId (below : Below 7 held) : Ordered held snapshotId := by
  simp [snapshotId, ordered_reconcilePending below, ordered_view (below.mono (by decide))]

theorem ordered_summary (below : Below 7 held) : Ordered held summary := by
  simp [summary, ReconciledState.read, editedPathsWithin, externalPathsWithin, below.mono,
    ordered_reconcilePending below]

theorem ordered_workspaceAction (below : Below 7 held) :
    Ordered held Application.workspaceAction := by
  simp [Application.workspaceAction, refresh, changes, diagnostics, ReconciledState.read,
    recordsSince, pendingCount, runningCount, records, someRecord, below.mono, ordered_summary below,
    ordered_reconcilePending below, ordered_rescan below]

theorem ordered_codeRetrieve (below : Below 8 held) : Ordered held Workspace.codeRetrieve := by
  simp [Workspace.codeRetrieve, searchIndex, readTarget, fetchIndexedPath, fetchSymbol, fetchMetadata,
    statusWithLimit, readOutput, RunTable.get, ordered_view below,
    ordered_read below ordered_attempt, below.mono]

theorem ordered_sessionAttempt (below : Below 8 held) (interpret : Ordered held p) :
    Ordered held (IntelligenceService.sessionAttempt p) := by
  simp [IntelligenceService.sessionAttempt, IntelligenceService.semantic, IntelligenceService.live,
    LspWorker.status, interpret, ordered_view below, below.mono]

theorem ordered_intelligence (below : Below 8 held) :
    Ordered held IntelligenceService.execute := by
  have live : Ordered held IntelligenceService.live := ordered_view below
  have locations : Ordered held IntelligenceService.normalizeLocations := by
    simp [IntelligenceService.normalizeLocations, IntelligenceService.readCurrent, live]
  simp [IntelligenceService.execute, live, locations, ordered_sessionAttempt below]

theorem ordered_executeOnce (below : Below 9 held) :
    Ordered held (LspWorker.executeOnce language) := by
  simp [LspWorker.executeOnce, LspWorker.statusWrite, below]

theorem Call.ordered (call : Call) : Ordered [] call.skeleton := by
  have edit : Ordered [(.operationGate, .shared)] Workspace.codeEdit := ordered_codeEdit (by simp)
  have snapshot : Ordered [(.operationGate, .shared)] snapshotId := ordered_snapshotId (by simp)
  cases call with
  | initializeAsync =>
    simp [skeleton, Application.initializeAsync, Application.initializeBlocking, indexFileCount,
      ordered_view]
  | health =>
    simp [skeleton, Application.health, indexFileCount, lastReconcileElapsedMs, ordered_view]
  | workspace =>
    simp [skeleton, Application.workspace, Application.operation, Application.actor,
      ordered_workspaceAction]
  | codeRetrieve =>
    simp [skeleton, Application.codeRetrieve, Application.operation, Application.actor,
      ordered_codeRetrieve]
  | codeIntelligence =>
    simp [skeleton, Application.codeIntelligence, Application.operation, Application.actor,
      ordered_intelligence, edit, snapshot]
  | codeEdit =>
    simp [skeleton, Application.codeEdit, Application.operation, Application.actor, edit, snapshot]
  | git action =>
    simp [skeleton, Application.git, Application.operation, Application.actor, ordered_git]
  | bash =>
    simp [skeleton, Application.bash, Application.operation, Application.actor, ordered_run]
  | observe => simp [skeleton, PendingHandle.observe]
  | task runId =>
    simp [skeleton, runTask, finalizeRunError, AbandonGuard.drop, ordered_execute]
  | collect runId => simp [skeleton, collectOutput]
  | worker language =>
    simp [skeleton, LspWorker.run, LspWorker.executeWithRestart, LspWorker.statusWrite,
      ordered_executeOnce]
  | retainTail language => simp [skeleton, LspWorker.retainTail]
  | abandonedEdit => simp [skeleton, exclusive, ordered_prepareEdit]
  | abandonedGit action => simp [skeleton, ordered_git]
  | abandonedRead =>
    simp [skeleton, attributeSince, ordered_workspaceAction, ordered_codeRetrieve,
      ordered_reconcilePending, ordered_intelligence]

structure Traffic (I : Type) where
  call : I → Call
  todo : I → List (Op Lock Act)
  traced : ∀ i, ∃ left, Trace (call i).skeleton (todo i) left

variable {I : Type}

theorem Traffic.good (traffic : Traffic I) :
    Good Lock.level Act.needs (Config.start traffic.todo) := good_start fun i => by
  obtain ⟨left, trace⟩ := traffic.traced i
  have ended : Disciplined Lock.level Act.needs [] ([] : List (Op Lock Act)) := rfl
  have disciplined := trace.disciplined (traffic.call i).ordered ended
  rwa [List.append_nil] at disciplined

variable [DecidableEq I] {policy : Policy I Lock Act} {traffic : Traffic I} {is : List I}
  {c : Config I Lock Act}

/-- However the calls are interleaved and whomever the locks let in first: somebody can go on
until all calls have ended, and then nothing is held. -/
theorem calls_complete [Fintype I] (run : Run (Step policy) (.start traffic.todo) is c) :
    (c.Done ∨ ∃ i d, Step policy c i d) ∧
      (∃ js d, Run (Step policy) c js d ∧ d.Done ∧ ∀ i, d.held i = []) ∧
      is.length + c.left = ∑ i, (traffic.todo i).length := by
  have good := traffic.good.run run
  refine ⟨?_, ?_, ?_⟩
  · by_cases done : c.Done
    · exact .inl done
    · exact .inr (good.progress policy done)
  · obtain ⟨js, d, rest, done⟩ := good.completes policy
    refine ⟨js, d, rest, done, fun i => List.eq_nil_iff_forall_not_mem.mpr fun taken mem => ?_⟩
    exact (good.run rest).unfinished mem (done i)
  · rw [Nat.add_comm, ← left_of_run run]
    rfl

structure Isolated (c : Config I Lock Act) : Prop where
  under : ∀ i a, c.Next i a → a.needs ⊆ c.held i
  /-- From the plan of an edit to the end of its validation, and in a mutating Git action. -/
  mutations : ∀ i j a, (.gate, .exclusive) ∈ c.held i → c.Next j a →
    a = .writeFile ∨ a = .gitMutation ∨ a = .validate → i = j
  writers : ∀ i j a, (.writer, .exclusive) ∈ c.held i → c.Next j a →
    a = .publish ∨ a = .drain ∨ a = .log ∨ a = .writeFile → i = j
  views : ∀ i j m, (.state, m) ∈ c.held i → c.Next j .publish → i = j
  services : ∀ i j m, (.operationGate, m) ∈ c.held i → c.Next j .install → i = j
  commands : ∀ i j, c.Next i .command → c.Next j .command → i = j

theorem calls_isolated (run : Run (Step policy) (.start traffic.todo) is c) : Isolated c := by
  have good := traffic.good.run run
  have apart {i j : I} {a : Act} {lock : Lock} {m : Mode} (mem : (lock, m) ∈ c.held i)
      (next : c.Next j a) (needed : (lock, .exclusive) ∈ a.needs) : i = j := by
    by_contra other
    exact good.excludes mem needed other (.inr rfl) next
  constructor
  · exact fun i a next => good.needed next
  · rintro i j a mem next (rfl | rfl | rfl) <;> exact apart mem next (by simp)
  · rintro i j a mem next (rfl | rfl | rfl | rfl) <;> exact apart mem next (by simp)
  · exact fun i j m mem next => apart mem next (by simp)
  · exact fun i j m mem next => apart mem next (by simp)
  · intro i j next next'
    have permit : (.runPermit, .exclusive) ∈ c.held i := good.needed next (by simp)
    exact apart permit next' (by simp)

/-- What is done under a lock alone is done in whole sections, one after the other: the drains,
publications, log entries and writes under the writer, the changes and validations under the
gate, the commands under the permit. -/
theorem sections_serial (run : Run (Step policy) (.start traffic.todo) is c) (lock : Lock) :
    ∃ inside, Serial Act.needs lock (c.history Act.needs lock) inside ∧
      ∀ i, (lock, .exclusive) ∈ c.held i ↔ inside = some i :=
  traffic.good.sections run lock

namespace Sample

variable {c : Config (Fin 4) Lock Act} {i : Fin 4}

def able (c : Config (Fin 4) Lock Act) (i : Fin 4) : Bool :=
  match c.todo i with
  | [] => false
  | .acquire l m :: _ =>
    decide (∀ j, ∀ taken ∈ c.held j, taken.1 = l → m = .shared ∧ taken.2 = .shared)
  | _ => true

def advanced (c : Config (Fin 4) Lock Act) (i : Fin 4) : Config (Fin 4) Lock Act :=
  match c.todo i with
  | [] => c
  | op :: ops => c.advance i op ops

def allAble : Config (Fin 4) Lock Act → List (Fin 4) → Bool
  | _, [] => true
  | c, i :: is => able c i && allAble (advanced c i) is

theorem step_advanced (free : able c i = true) : Step Policy.eager c i (advanced c i) := by
  cases todo : c.todo i with
  | nil =>
    rw [able, todo] at free
    cases free
  | cons op ops =>
    have next : advanced c i = c.advance i op ops := by rw [advanced, todo]
    rw [next]
    refine .step todo fun lock waits l m more eq j m' mem => ?_
    rw [todo] at eq
    cases eq
    rw [able, todo] at free
    exact of_decide_eq_true free j (l, m') mem rfl

theorem run_advanced {is : List (Fin 4)} (free : allAble c is = true) :
    Run (Step Policy.eager) c is (is.foldl advanced c) := by
  induction is generalizing c with
  | nil => exact .nil c
  | cons i is ih =>
    rw [allAble, Bool.and_eq_true] at free
    exact (Run.single (step_advanced free.1)).trans (ih free.2)

def block (lock : Lock) (mode : Mode) (ops : List (Op Lock Act)) : List (Op Lock Act) :=
  .acquire lock mode :: (ops ++ [.release lock mode])

def viewed : List (Op Lock Act) := block .state .shared [.act .view]

def editing : List (Op Lock Act) :=
  block .operationGate .shared (block .actor .shared [.act .lookup] ++
    block .gate .exclusive (block .writer .exclusive (viewed ++ viewed ++ viewed ++
      block .internalWrites .exclusive [] ++ [.act .writeFile] ++
      block .state .exclusive [.act .publish] ++ block .events .exclusive [.act .log])) ++
    viewed)

theorem passed : Trace attempt [] false := .second .skip

theorem returned : Trace attempt [] true := .first .leave

theorem editing_trace : Trace Application.codeEdit editing false := by
  have reconciled : Trace Workspace.reconcileWith [] false :=
    .call (.seq (.call (.seq_left returned)) (.seq_left returned))
  have view : Trace (ReconciledState.read .skip) viewed false :=
    .hold (.seq .act (.seq .skip .skip))
  have checked : Trace (ReconciledState.read attempt) viewed false :=
    .hold (.seq .act (.seq passed .skip))
  have committed : Trace Workspace.commitPlan _ false :=
    .call (.seq view (.seq
      (.many_cons (.seq (.hold .skip) (.seq .act (.seq (.second .skip) .skip))) .many_nil)
      (.seq (.hold .act) (.seq (.second .skip) (.seq (.hold .act) .skip)))))
  have prepared : Trace Workspace.prepareEdit _ false :=
    .call (.hold (.seq reconciled (.seq passed (.seq view (.seq passed (.seq checked
      (.seq passed (.seq committed .skip))))))))
  have edited : Trace Workspace.codeEdit _ false :=
    .call (.seq passed (.seq (.hold (.seq prepared (.seq passed (.seq (.call .many_nil) .skip))))
      (.seq (.call (.seq_left returned)) (.seq passed (.seq view .skip)))))
  have whole : Trace Application.codeEdit _ false :=
    .hold (.call (.seq (.hold .act) (.seq passed (.seq (.second .skip) (.seq edited .skip)))))
  exact whole

def asking : List (Op Lock Act) :=
  block .operationGate .shared (block .actor .shared [.act .lookup] ++
    block .writer .exclusive ([.act .drain] ++ block .paths .exclusive [] ++
      block .state .exclusive [.act .publish]) ++ block .events .exclusive [] ++ viewed)

theorem asking_trace : Trace Application.workspace asking false := by
  have drained : Trace ChangeLedger.drainPending _ false :=
    .call (.seq passed (.seq .act (.seq (.hold .skip) (.seq .many_nil .skip))))
  have reconciled : Trace Workspace.reconcileWith _ false :=
    .call (.seq drained (.seq passed (.seq (.hold .act) (.seq_left returned))))
  have told : Trace Workspace.changes _ false :=
    .call (.seq (.call (.seq passed (.seq (.hold reconciled) .skip))) (.seq passed
      (.seq (.hold .skip) (.seq (.hold (.seq .act (.seq .skip .skip))) .skip))))
  have whole : Trace Application.workspace _ false :=
    .hold (.call (.seq (.hold .act) (.seq passed (.seq (.second (.second (.first told))) .skip))))
  exact whole

def running : List (Op Lock Act) :=
  block .runPermit .exclusive (block (.record []) .exclusive [] ++
    block (.record []) .exclusive [] ++ [.act .command] ++ block (.record []) .exclusive []) ++
      block (.record []) .exclusive []

theorem running_trace : Trace (runTask []) running false := by
  have executed : Trace (execute []) _ false :=
    .call (.seq (.hold .skip) (.seq passed (.seq passed (.seq (.hold .skip) (.seq (.second .skip)
      (.seq .act (.seq (.second .skip) (.seq (.hold .skip) .skip))))))))
  have whole : Trace (runTask []) _ false :=
    .seq (.hold (.seq executed (.seq (.second .skip) .skip))) (.seq (.hold .skip) .skip)
  exact whole

def rivals : Traffic (Fin 4) where
  call
    | 0 | 1 => .codeEdit
    | 2 => .workspace
    | 3 => .task []
  todo
    | 0 | 1 => editing
    | 2 => asking
    | 3 => running
  traced
    | 0 | 1 => ⟨false, editing_trace⟩
    | 2 => ⟨false, asking_trace⟩
    | 3 => ⟨false, running_trace⟩

def toTheWrite : List (Fin 4) :=
  .replicate 4 1 ++ .replicate 5 0 ++ .replicate 4 2 ++ .replicate 5 3 ++ .replicate 12 0

def writing : Config (Fin 4) Lock Act := toTheWrite.foldl advanced (.start rivals.todo)

def toTheDrain : List (Fin 4) := toTheWrite ++ (.replicate 8 0 ++ .replicate 2 2)

def draining : Config (Fin 4) Lock Act := toTheDrain.foldl advanced (.start rivals.todo)

theorem rivals_complete :
    writing.Waits 1 .gate ∧ writing.Waits 2 .writer ∧
      writing.held 0 = [(.writer, .exclusive), (.gate, .exclusive), (.operationGate, .shared)] ∧
      (writing.Done ∨ ∃ i d, Step Policy.eager writing i d) ∧
      (∃ js d, Run (Step Policy.eager) writing js d ∧ d.Done ∧ ∀ i, d.held i = []) ∧
      toTheWrite.length + writing.left = ∑ i, (rivals.todo i).length :=
  ⟨⟨.exclusive, _, rfl⟩, ⟨.exclusive, _, rfl⟩, rfl,
    @calls_complete (Fin 4) _ Policy.eager rivals toTheWrite writing _
      (run_advanced (by decide +kernel))⟩

theorem rivals_serial :
    (draining.history Act.needs .writer).map Prod.fst = [2, 2, 0, 0, 0, 0, 0] ∧
      ∃ inside, Serial Act.needs .writer (draining.history Act.needs .writer) inside ∧
        ∀ i, (Lock.writer, .exclusive) ∈ draining.held i ↔ inside = some i :=
  ⟨by decide +kernel, @sections_serial (Fin 4) _ Policy.eager rivals toTheDrain draining
    (run_advanced (by decide +kernel)) .writer⟩

theorem rivals_isolated :
    writing.Next 0 .writeFile ∧ writing.Next 3 .command ∧ Isolated writing :=
  ⟨⟨_, rfl⟩, ⟨_, rfl⟩, @calls_isolated (Fin 4) _ Policy.eager rivals toTheWrite writing
    (run_advanced (by decide +kernel))⟩

end Sample

end Locking

end CodeWeave
