import CodeWeave.Defs.Bash.LifecycleLaws
import CodeWeave.Defs.Bash.Supervisor
import CodeWeave.Lib.Permit

namespace CodeWeave

namespace SupervisedRun

inductive Moves (run : SupervisedRun) : RunStep → SupervisedRun → Prop
  | takePermit (here : run.task = .waiting) :
      Moves run .takePermit { run with task := .permitted }
  | queueClosed (here : run.task = .waiting) :
      Moves run .queueClosed
        { run with task := .failing false "Bash execution queue is unavailable" }
  | check {now : Timestamp} (here : run.task = .permitted) :
      Moves run (.check now) { run with
        record := run.record.execute (.cancelledBeforeStart now)
        task := if (run.record.finishIfCancelledBeforeStart now).1 then .closing true
          else .cleared }
  | launched {group : ProcessGroup} {warning : Option String} (here : run.task = .cleared) :
      Moves run (.launch (.ok (group, warning)))
        { run with task := .launched group warning, launched := some group }
  | unlaunched {message : String} (here : run.task = .cleared) :
      Moves run (.launch (.error message)) { run with task := .failing true message }
  | startProcess {now : Timestamp} {group : ProcessGroup} {warning : Option String}
      (here : run.task = .launched group warning) :
      Moves run (.startProcess now) { run with
        record := run.record.execute (.processStarted now warning group)
        task := .started run.record.cancelRequested, begun := true }
  | proceed {cancelAfterSpawn : Bool} (here : run.task = .started cancelAfterSpawn) :
      Moves run .proceed { run with task := .awaiting, asked := run.asked || cancelAfterSpawn }
  | exited {code : Option Int} {success : Bool} (here : run.task = .awaiting) :
      Moves run (.exited code success) { run with task := .draining (.exited code success) }
  | waitFailed {error : String} (here : run.task = .awaiting) :
      Moves run (.waitFailed error) { run with task := .draining (.waitFailed error) }
  | elapsed (here : run.task = .awaiting) :
      Moves run .elapsed { run with task := .stopping, asked := true }
  | stopped (here : run.task = .stopping) :
      Moves run .stopped { run with task := .draining (.timedOut run.timeoutMs) }
  | drained {now : Timestamp} {warning : Option String} {outcome : ProcessOutcome}
      (here : run.task = .draining outcome) :
      Moves run (.drained now warning) { run with
        record := run.record.execute (.processEnded now warning outcome), task := .closing true }
  | finalize {now : Timestamp} {permit : Bool} {message : String}
      (here : run.task = .failing permit message) :
      Moves run (.finalize now)
        { run with record := run.record.execute (.failed now message), task := .closing permit }
  | release {permit : Bool} (here : run.task = .closing permit) :
      Moves run .release { run with task := .dropped }
  | guardDropped {now : Timestamp} (here : run.task = .dropped) :
      Moves run (.guardDropped now)
        { run with record := run.record.execute (.abandoned now), task := .over }
  | abandon (here : run.task.abandonable = true) :
      Moves run .abandon { run with task := .closing run.task.holdsPermit }
  | cancel {now : Timestamp} (retained : run.retained = true) :
      Moves run (.cancel now) { run with
        record := (run.record.requestCancel now).2
        asking := run.asking + if run.record.status.isTerminal = false ∧
          run.record.process.isSome = true then 1 else 0 }
  | terminate {asking : Nat} (due : run.asking = asking + 1) :
      Moves run .terminate { run with asking := asking, asked := true }
  | collect {pipe : Pipe} {chunk : Option (List UInt8)} {output : RunOutput} :
      Moves run (.collect pipe chunk) { run with output := output }
  | evict (ended : run.record.endedAt.isSome = true) :
      Moves run .evict { run with retained := false }

theorem cancel_eq (run : SupervisedRun) (now : Timestamp) : run.cancel now = { run with
    record := (run.record.requestCancel now).2
    asking := run.asking + if run.record.status.isTerminal = false ∧
      run.record.process.isSome = true then 1 else 0 } := by
  rw [cancel, RunRecord.requestCancel_eq]
  by_cases ended : run.record.status.isTerminal = true
  · simp [ended]
  · cases process : run.record.process <;> simp [ended]

theorem moves_of_step {run later : SupervisedRun} {step : RunStep}
    (h : run.step step = some later) : run.Moves step later := by
  cases step with
  | launch launched =>
    simp only [SupervisedRun.step] at h
    split at h
    · next here => cases h; exact .launched here
    · next here => cases h; exact .unlaunched here
    · cases h
  | startProcess now =>
    simp only [SupervisedRun.step] at h
    split at h
    · next group warning here =>
      cases h
      have cancelled : ((warning.elim run.record run.record.addNote).startProcess now group).1 =
          run.record.cancelRequested := by
        rw [RunRecord.startProcess_eq]
        cases warning <;> rfl
      simp only [cancelled]
      exact .startProcess here
    · cases h
  | cancel now =>
    simp only [SupervisedRun.step] at h
    split at h
    · next retained => cases h; rw [cancel_eq]; exact .cancel retained
    · cases h
  | terminate =>
    simp only [SupervisedRun.step] at h
    split at h
    · cases h
    · next asking due => cases h; exact .terminate due
  | collect pipe chunk =>
    simp only [SupervisedRun.step] at h
    split at h
    · cases h; exact .collect
    · cases h
  | _ =>
    simp only [SupervisedRun.step] at h
    split at h
    · next here => cases h; constructor; exact here
    · cases h

variable {run later : SupervisedRun} {step : RunStep}

theorem Moves.record (moves : run.Moves step later) : later.record = run.record ∨
    (∃ execution, later.record = run.record.execute execution) ∨
    ∃ now, later.record = (run.record.requestCancel now).2 := by
  cases moves with
  | check => exact .inr (.inl ⟨.cancelledBeforeStart _, rfl⟩)
  | startProcess => exact .inr (.inl ⟨.processStarted _ _ _, rfl⟩)
  | drained => exact .inr (.inl ⟨.processEnded _ _ _, rfl⟩)
  | finalize => exact .inr (.inl ⟨.failed _ _, rfl⟩)
  | guardDropped => exact .inr (.inl ⟨.abandoned _, rfl⟩)
  | cancel => exact .inr (.inr ⟨_, rfl⟩)
  | _ => exact .inl rfl

theorem Moves.consistent (moves : run.Moves step later) (consistent : run.record.Consistent) :
    later.record.Consistent := by
  rcases moves.record with same | ⟨execution, executed⟩ | ⟨now, cancelled⟩
  · rwa [same]
  · rw [executed]; exact consistent.execute execution
  · rw [cancelled]; exact consistent.requestCancel now

theorem Moves.persists (moves : run.Moves step later) : run.record.Persists later.record := by
  rcases moves.record with same | ⟨execution, executed⟩ | ⟨now, cancelled⟩
  · rw [same]; exact .refl run.record
  · rw [executed]; exact RunRecord.persists_execute execution
  · rw [cancelled]; exact RunRecord.persists_requestCancel now

def Fits (run : SupervisedRun) : Prop :=
  match run.task with
  | .waiting | .permitted | .cleared | .failing _ _ =>
    run.record.status.isTerminal = false ∧ run.launched = none ∧ run.begun = false
  | .launched group _ =>
    run.record.status.isTerminal = false ∧ run.launched = some group ∧ run.begun = false
  | .started _ | .awaiting | .stopping | .draining _ =>
    run.record.status.isTerminal = false ∧ run.launched.isSome = true ∧ run.begun = true
  | .closing _ | .dropped => run.launched.isSome = run.begun
  | .over => run.record.status.isTerminal = true ∧ run.launched.isSome = run.begun

/-- A run's process runs exactly between its start and its end, and whoever accepts a
cancel in between asks it to terminate. -/
structure Sound (run : SupervisedRun) : Prop where
  consistent : run.record.Consistent
  fits : run.Fits
  unstarted : run.begun = false → run.record.process = none
  left_queue : run.begun = true → run.record.status ≠ .queued
  running : run.begun = true → run.record.status.isTerminal = false →
    run.record.process.isSome = true
  asks : run.record.cancelRequested = true → run.begun = true →
    run.asked = true ∨ run.asking ≠ 0 ∨ run.task = .started true

theorem sound_queued (id : RunId) (sequence : Nat) (now : Timestamp)
    (timeoutMs outputLimit : Nat) (immediatePermit : Bool) :
    (queued id sequence now timeoutMs outputLimit immediatePermit).Sound := by
  refine ⟨RunRecord.consistent_queued id sequence now none, ?_, fun _ => rfl, nofun, nofun, nofun⟩
  cases immediatePermit <;> exact ⟨rfl, rfl, rfl⟩

theorem Sound.of_ended (consistent : later.record.Consistent)
    (ended : later.record.status.isTerminal = true) (fits : later.Fits)
    (asks : later.record.cancelRequested = true → later.begun = true →
      later.asked = true ∨ later.asking ≠ 0 ∨ later.task = .started true) : later.Sound := by
  refine ⟨consistent, fits, fun _ => consistent.released ended, fun _ queued => ?_,
    fun _ active => ?_, asks⟩
  · rw [queued] at ended; cases ended
  · rw [active] at ended; cases ended

theorem Sound.of_same (sound : run.Sound) (record : later.record = run.record)
    (begun : later.begun = run.begun) (fits : later.Fits)
    (asks : later.record.cancelRequested = true → later.begun = true →
      later.asked = true ∨ later.asking ≠ 0 ∨ later.task = .started true) : later.Sound := by
  refine ⟨by rw [record]; exact sound.consistent, fits, ?_, ?_, ?_, asks⟩ <;> rw [record, begun]
  · exact sound.unstarted
  · exact sound.left_queue
  · exact sound.running

theorem Sound.asked_or_asking (sound : run.Sound) (elsewhere : run.task ≠ .started true)
    {P : Prop} (requested : run.record.cancelRequested = true) (begun : run.begun = true) :
    run.asked = true ∨ run.asking ≠ 0 ∨ P := by
  rcases sound.asks requested begun with asked | asking | started
  · exact .inl asked
  · exact .inr (.inl asking)
  · exact absurd started elsewhere

theorem Sound.finish (sound : run.Sound) {now : Timestamp} {status : RunStatus}
    {exitCode : Option Int} {note : Option String} {task : Task}
    (forced : status = .cancelled ∨ status = .failed) (elsewhere : run.task ≠ .started true)
    (fits : (run.record.finish now status exitCode note).2.status.isTerminal = true →
      Fits { run with record := (run.record.finish now status exitCode note).2, task := task }) :
    Sound { run with record := (run.record.finish now status exitCode note).2, task := task } := by
  have terminal : status.isTerminal = true := by rcases forced with rfl | rfl <;> rfl
  have ended := RunRecord.isTerminal_finish now run.record forced exitCode note
  refine .of_ended (sound.consistent.finish now terminal exitCode note) ended (fits ended)
    fun requested begun => ?_
  simp only [RunRecord.cancelRequested_finish now _ terminal] at requested
  exact sound.asked_or_asking elsewhere requested begun

theorem Sound.processEnded (sound : run.Sound) (begun : run.begun = true) (now : Timestamp)
    (warning : Option String) (outcome : ProcessOutcome) :
    (run.record.execute (.processEnded now warning outcome)).status.isTerminal = true := by
  by_cases active : run.record.status.isTerminal = true
  · rw [(RunRecord.persists_execute (.processEnded now warning outcome)).status active, active]
  · have warned := sound.consistent.warned warning
    refine (warned.finishProcess_ends now ?_ ?_ outcome).2.1
    · rw [RunRecord.status_warned]; exact sound.left_queue begun
    · rw [RunRecord.status_warned]; exact Bool.eq_false_of_not_eq_true active

theorem Sound.moves (sound : run.Sound) (moves : run.Moves step later) : later.Sound := by
  have consistent := moves.consistent sound.consistent
  have fits := sound.fits
  unfold Fits at fits
  cases moves with
  | takePermit here | queueClosed here | unlaunched here =>
    rw [here] at fits
    exact sound.of_same rfl rfl fits fun _ begun => absurd begun (by simp [fits.2.2])
  | @check now here =>
    rw [here] at fits
    have unbegun : ¬run.begun = true := by simp [fits.2.2]
    have ended := run.record.finishIfCancelledBeforeStart_eq now fits.1
    cases requested : run.record.cancelRequested with
    | true =>
      rw [requested] at ended
      refine .of_ended consistent ended.2 ?_ fun _ begun => absurd begun unbegun
      simp only [Fits, ended.1, if_true]
      rw [fits.2.1, fits.2.2]
      rfl
    | false =>
      have same : run.record.execute (.cancelledBeforeStart now) = run.record := by
        simp [RunRecord.execute, RunRecord.finishIfCancelledBeforeStart, requested]
      refine sound.of_same same rfl ?_ fun _ begun => absurd begun unbegun
      simp only [Fits, ended.1, requested, same]
      exact fits
  | launched here =>
    rw [here] at fits
    exact sound.of_same rfl rfl ⟨fits.1, rfl, fits.2.2⟩
      fun _ begun => absurd begun (by simp [fits.2.2])
  | @startProcess now group warning here =>
    rw [here] at fits
    have warned := sound.consistent.warned warning
    have active : (warning.elim run.record run.record.addNote).status.isTerminal = false := by
      rw [RunRecord.status_warned, fits.1]
    have executed := (warning.elim run.record run.record.addNote).startProcess_eq now group
    refine ⟨consistent, ⟨?_, by simp [fits.2.1], rfl⟩,
      fun unbegun => Bool.noConfusion unbegun, fun _ => ?_, fun _ _ => ?_,
      fun requested _ => .inr (.inr ?_)⟩
    · rw [RunRecord.execute, executed, RunRecord.startStatus_isTerminal, active]
    · rw [RunRecord.execute, executed]
      exact warned.startStatus_ne_queued
    · rw [RunRecord.execute, executed, active]
      rfl
    · simp only [RunRecord.cancelRequested_execute] at requested
      rw [requested]
  | @proceed cancelAfterSpawn here =>
    rw [here] at fits
    refine sound.of_same rfl rfl fits fun requested begun => ?_
    rcases sound.asks requested begun with asked | asking | started
    · exact .inl (by simp [asked])
    · exact .inr (.inl asking)
    · rw [here, Task.started.injEq] at started
      exact .inl (by simp [started])
  | exited here | waitFailed here | stopped here =>
    rw [here] at fits
    exact sound.of_same rfl rfl fits (sound.asked_or_asking (by simp [here]))
  | elapsed here =>
    rw [here] at fits
    exact sound.of_same rfl rfl fits fun _ _ => .inl rfl
  | @drained now warning outcome here =>
    rw [here] at fits
    have ended := sound.processEnded fits.2.2 now warning outcome
    refine .of_ended consistent ended (fits.2.1.trans fits.2.2.symm) fun requested begun => ?_
    simp only [RunRecord.cancelRequested_execute] at requested
    exact sound.asked_or_asking (by simp [here]) requested begun
  | finalize here =>
    rw [here] at fits
    exact sound.finish (.inr rfl) (by simp [here]) fun _ => by simp [Fits, fits]
  | release here =>
    rw [here] at fits
    exact sound.of_same rfl rfl fits (sound.asked_or_asking (by simp [here]))
  | guardDropped here =>
    rw [here] at fits
    exact sound.finish (.inl rfl) (by simp [here]) fun ended => ⟨ended, fits⟩
  | abandon here =>
    refine sound.of_same rfl rfl ?_ (sound.asked_or_asking fun started => ?_)
    · cases task : run.task <;> rw [task] at fits here <;> simp_all [Fits, Task.abandonable]
    · rw [started] at here
      cases here
  | @cancel now retained =>
    refine ⟨consistent, ?_, ?_, fun begun => ?_, fun begun => ?_, fun requested begun => ?_⟩
    · simp only [Fits, RunRecord.isTerminal_requestCancel]
      exact fits
    · simp only [RunRecord.process_requestCancel]
      exact sound.unstarted
    · exact RunRecord.status_requestCancel_ne_queued now (sound.left_queue begun)
    · simp only [RunRecord.process_requestCancel, RunRecord.isTerminal_requestCancel]
      exact sound.running begun
    · by_cases ended : run.record.status.isTerminal = true
      · simp only [RunRecord.requestCancel_eq, ended, if_true] at requested
        simpa [ended] using sound.asks requested begun
      · have active := Bool.eq_false_of_not_eq_true ended
        simp [active, sound.running begun active]
  | terminate due =>
    exact sound.of_same rfl rfl fits fun _ _ => .inl rfl
  | collect => exact sound.of_same rfl rfl fits sound.asks
  | evict ended => exact sound.of_same rfl rfl fits sound.asks

structure Doomed (run : SupervisedRun) : Prop where
  requested : run.record.cancelRequested = true
  unlaunched : run.launched = none
  place : run.task = .waiting ∨ run.task = .permitted ∨ (∃ permit message,
    run.task = .failing permit message) ∨ (∃ permit, run.task = .closing permit) ∨
    run.task = .dropped ∨ run.task = .over

theorem Doomed.moves (doomed : run.Doomed) (sound : run.Sound) (moves : run.Moves step later) :
    later.Doomed := by
  have requested := moves.persists.cancelRequested doomed.requested
  have place := doomed.place
  cases moves with
  | takePermit here => exact ⟨requested, doomed.unlaunched, .inr (.inl rfl)⟩
  | queueClosed here => exact ⟨requested, doomed.unlaunched, .inr (.inr (.inl ⟨_, _, rfl⟩))⟩
  | @check now here =>
    have fits := sound.fits
    rw [Fits, here] at fits
    have ended := run.record.finishIfCancelledBeforeStart_eq now fits.1
    rw [doomed.requested] at ended
    exact ⟨requested, doomed.unlaunched, .inr (.inr (.inr (.inl ⟨true, by simp [ended.1]⟩)))⟩
  | finalize here =>
    exact ⟨requested, doomed.unlaunched, .inr (.inr (.inr (.inl ⟨_, rfl⟩)))⟩
  | release here =>
    exact ⟨requested, doomed.unlaunched, .inr (.inr (.inr (.inr (.inl rfl))))⟩
  | guardDropped here =>
    exact ⟨requested, doomed.unlaunched, .inr (.inr (.inr (.inr (.inr rfl))))⟩
  | abandon here => exact ⟨requested, doomed.unlaunched, .inr (.inr (.inr (.inl ⟨_, rfl⟩)))⟩
  | cancel | terminate | collect | evict => exact ⟨requested, doomed.unlaunched, place⟩
  | launched here | unlaunched here | startProcess here | proceed here | exited here
  | waitFailed here | elapsed here | stopped here | drained here => simp [here] at place

def runsProcess (run : SupervisedRun) : Prop :=
  match run.task with
  | .started _ | .awaiting | .stopping | .draining _ => True
  | _ => False

theorem runsProcess_moves (sound : run.Sound) (moves : run.Moves step later)
    (kept : step ≠ .abandon) (runs : run.record.process.isSome = true → run.runsProcess) :
    later.record.process.isSome = true → later.runsProcess := by
  have after := sound.moves moves
  have fits := sound.fits
  intro occupied
  have unended : later.record.status.isTerminal = false := by
    refine Bool.eq_false_of_not_eq_true fun ended => ?_
    rw [after.consistent.released ended] at occupied
    cases occupied
  have begun : later.begun = true := by
    refine Bool.eq_true_of_not_eq_false fun unbegun => ?_
    rw [after.unstarted unbegun] at occupied
    cases occupied
  cases moves with
  | takePermit here | queueClosed here | check here | launched here | unlaunched here
  | finalize here =>
    rw [Fits, here] at fits
    rw [fits.2.2] at begun
    cases begun
  | startProcess | proceed | exited | waitFailed | elapsed | stopped => trivial
  | @drained now warning outcome here =>
    rw [Fits, here] at fits
    rw [sound.processEnded fits.2.2 now warning outcome] at unended
    cases unended
  | release here =>
    have running := runs occupied
    rw [runsProcess, here] at running
    exact running.elim
  | guardDropped here =>
    rw [after.fits.1] at unended
    cases unended
  | abandon here => exact absurd rfl kept
  | cancel retained =>
    rw [RunRecord.process_requestCancel] at occupied
    exact runs occupied
  | terminate | collect | evict => exact runs occupied

theorem holdsPermit_of_runsProcess (runs : run.runsProcess) : run.task.holdsPermit = true := by
  cases task : run.task <;> rw [runsProcess, task] at runs <;> first | rfl | exact runs.elim

theorem Moves.holdsPermit (moves : run.Moves step later) (other : step ≠ .takePermit)
    (held : later.task.holdsPermit = true) : run.task.holdsPermit = true := by
  cases moves with
  | takePermit here => exact absurd rfl other
  | queueClosed here | release here | guardDropped here => cases held
  | check here | launched here | unlaunched here | startProcess here | proceed here | exited here
  | waitFailed here | elapsed here | stopped here | drained here => rw [here]; rfl
  | finalize here => rw [here]; exact held
  | abandon here => exact held
  | cancel | terminate | collect | evict => exact held

/-- Whether steps that are due ask the run's process group to terminate: the start of its
process, what its task does next, and a cancel under way. -/
def StopDue (run : SupervisedRun) : Prop :=
  ∃ (due : List RunStep) (later : SupervisedRun), (∀ step ∈ due,
    (∃ now, step = .startProcess now) ∨ step = .proceed ∨ step = .terminate) ∧
    due.foldlM SupervisedRun.step run = some later ∧ later.asked = true

structure Lifecycle (run : SupervisedRun) : Prop where
  ended : run.record.endedAt.isSome = true ↔ run.record.status.isTerminal = true
  released : run.record.status.isTerminal = true → run.record.process = none
  accepted : ∀ now group later, run.record.requestCancel now = (.requested group, later) →
    run.record.status.isTerminal = false ∧ later.cancelRequested = true
  cancelled : run.record.cancelRequested = true → run.record.status.isTerminal = true →
    run.record.status = .cancelled ∨ run.record.status = .failed
  stopped : run.record.cancelRequested = true → run.launched.isSome = true →
    run.asked = true ∨ run.StopDue
  finishes : run.begun = true → run.record.status.isTerminal = false → ∀ now outcome,
    (run.record.finishProcess now outcome).1 = true ∧
      (run.record.finishProcess now outcome).2.status.isTerminal = true

structure Continues (run later : SupervisedRun) : Prop where
  frozen : run.record.status.isTerminal = true → later.record.status = run.record.status ∧
    later.record.exitCode = run.record.exitCode ∧ later.record.endedAt = run.record.endedAt ∧
    later.record.process = none
  requested : run.record.cancelRequested = true → later.record.cancelRequested = true
  unlaunched : run.record.cancelRequested = true → run.task = .waiting → later.launched = none

theorem stopDue_of_started (started : run.task = .started true) : run.StopDue := by
  refine ⟨[.proceed], { run with task := .awaiting, asked := run.asked || true }, by simp, ?_,
    by simp⟩
  simp [SupervisedRun.step, started]

theorem stopDue_of_launched {group : ProcessGroup} {warning : Option String}
    (launched : run.task = .launched group warning)
    (requested : run.record.cancelRequested = true) : run.StopDue := by
  have begins : ((warning.elim run.record run.record.addNote).startProcess 0 group).1 = true := by
    rw [RunRecord.startProcess_eq, RunRecord.cancelRequested_warned, requested]
  have started : StopDue { run with
      record := ((warning.elim run.record run.record.addNote).startProcess 0 group).2
      task := .started ((warning.elim run.record run.record.addNote).startProcess 0 group).1
      begun := true } :=
    stopDue_of_started (by rw [begins])
  obtain ⟨due, later, each, steps, asked⟩ := started
  refine ⟨.startProcess 0 :: due, later, ?_, ?_, asked⟩
  · rw [List.forall_mem_cons]
    exact ⟨.inl ⟨0, rfl⟩, each⟩
  · simp only [List.foldlM_cons, SupervisedRun.step, launched]
    exact steps

theorem Sound.stopDue (sound : run.Sound) (requested : run.record.cancelRequested = true)
    (launched : run.launched.isSome = true) : run.asked = true ∨ run.StopDue := by
  by_cases begun : run.begun = true
  · rcases sound.asks requested begun with asked | asking | started
    · exact .inl asked
    · obtain ⟨asking, due⟩ := Nat.exists_eq_succ_of_ne_zero asking
      refine .inr ⟨[.terminate], { run with asking := asking, asked := true }, by simp, ?_, rfl⟩
      simp [SupervisedRun.step, due]
    · exact .inr (stopDue_of_started started)
  · -- a group that is launched and whose process is yet to be recorded
    have fits := sound.fits
    cases task : run.task with
    | launched group warning => exact .inr (stopDue_of_launched task requested)
    | _ => rw [Fits, task] at fits; simp_all

theorem Sound.lifecycle (sound : run.Sound) : run.Lifecycle := by
  refine ⟨?_, sound.consistent.released, fun now group later cancel => ?_,
    fun requested ended => ?_, sound.stopDue, fun begun active now outcome => ?_⟩
  · rw [sound.consistent.ended]
  · rw [RunRecord.requestCancel_eq] at cancel
    split at cancel
    · cases cancel
    · next active =>
      simp only [Prod.mk.injEq] at cancel
      obtain ⟨-, rfl⟩ := cancel
      refine ⟨Bool.eq_false_of_not_eq_true active, ?_⟩
      by_cases cancelling : run.record.status = .cancelling
      · simp [sound.consistent.cancelling cancelling]
      · simp [cancelling]
  · rcases sound.consistent.requested requested with eq | eq | eq
    · rw [eq] at ended; cases ended
    · exact .inl eq
    · exact .inr eq
  · have ends := sound.consistent.finishProcess_ends now (sound.left_queue begun) active outcome
    exact ⟨ends.1, ends.2.1⟩

end SupervisedRun

namespace Supervisor

variable {s t : Supervisor} {event : SupervisorEvent}

theorem lookup_insert (s : Supervisor) (run : RunId) (supervised : SupervisedRun) :
    (s.insert run supervised).runs.lookup =
      Function.update s.runs.lookup run (some supervised) := by
  funext other
  by_cases same : other = run
  · rw [same, Function.update_self]
    exact AList.lookup_insert s.runs
  · rw [Function.update_of_ne same]
    exact AList.lookup_insert_ne same

theorem lookup_insert_at (s : Supervisor) (run : RunId) (supervised : SupervisedRun)
    (other : RunId) : (s.insert run supervised).runs.lookup other =
      Function.update s.runs.lookup run (some supervised) other :=
  congrFun (s.lookup_insert run supervised) other

def pool (s : Supervisor) : Permit.Pool RunId SupervisedRun :=
  ⟨s.permits, s.starting, s.runs.lookup⟩

theorem step_run {run : RunId} {step : RunStep} (h : s.step (.run run step) = some t) :
    ∃ supervised later permits, s.runs.lookup run = some supervised ∧
      supervised.Moves step later ∧ s.permitsAfter supervised step = some permits ∧
      t = { s.insert run later with permits := permits } := by
  simp only [Supervisor.step, Option.bind_eq_bind, Option.bind_eq_some_iff,
    Option.some.injEq] at h
  obtain ⟨supervised, here, later, moved, permits, taken, rfl⟩ := h
  exact ⟨supervised, later, permits, here, SupervisedRun.moves_of_step moved, taken, rfl⟩

theorem pool_step (h : s.step event = some t) :
    Permit.Step (fun run : SupervisedRun => run.task.holdsPermit = true) s.pool t.pool := by
  cases event with
  | acquire =>
    simp only [Supervisor.step] at h
    split at h
    · cases h
    · next free => cases h; exact .reserve free
  | start run sequence now timeoutMs =>
    simp only [Supervisor.step] at h
    split at h
    · cases h
    · next ready =>
      cases h
      rw [not_or] at ready
      rw [pool, pool]
      simp only [lookup_insert]
      exact @Permit.Step.seat _ _ _ _ s.pool _ _ ready.1
  | queue run sequence now timeoutMs =>
    simp only [Supervisor.step] at h
    split at h
    · cases h
    · cases h
      rw [pool, pool, lookup_insert]
      exact @Permit.Step.enter _ _ _ _ s.pool _ _ nofun
  | run run step =>
    obtain ⟨supervised, later, permits, here, moves, taken, rfl⟩ := step_run h
    have places : pool { s.insert run later with permits := permits } =
        ⟨permits, s.starting, Function.update s.runs.lookup run (some later)⟩ := by
      rw [← lookup_insert]
      rfl
    rw [places]
    have kept (other : step ≠ .takePermit) (same : permits = s.permits) :
        Permit.Step (fun run : SupervisedRun => run.task.holdsPermit = true) s.pool
          ⟨permits, s.starting, Function.update s.runs.lookup run (some later)⟩ := by
      rw [same]
      exact @Permit.Step.move _ _ _ _ s.pool _ _ _ here (moves.holdsPermit other)
    cases step with
    | takePermit =>
      simp only [permitsAfter] at taken
      split at taken
      · cases taken
      · next free => cases taken; exact @Permit.Step.take _ _ _ _ s.pool _ _ free
    | release =>
      simp only [permitsAfter] at taken
      split at taken
      · next held =>
        cases taken
        cases moves
        exact @Permit.Step.give _ _ _ _ s.pool _ _ _ here held nofun
      · cases taken
        exact kept nofun rfl
    | _ =>
      cases taken
      exact kept nofun rfl

theorem lookup_step (h : s.step event = some t) {run : RunId} {supervised : SupervisedRun}
    (here : s.runs.lookup run = some supervised) :
    ∃ later, t.runs.lookup run = some later ∧ (later = supervised ∨
      ∃ step, event = .run run step ∧ supervised.Moves step later) := by
  have apart {other : RunId} {added : SupervisedRun} (absent : s.runs.lookup other = none) :
      (s.insert other added).runs.lookup run = some supervised := by
    rw [lookup_insert_at, Function.update_of_ne, here]
    rintro rfl
    rw [here] at absent
    cases absent
  cases event with
  | acquire =>
    simp only [Supervisor.step] at h
    split at h
    · cases h
    · cases h; exact ⟨supervised, here, .inl rfl⟩
  | start other sequence now timeoutMs =>
    simp only [Supervisor.step] at h
    split at h
    · cases h
    · next ready =>
      cases h
      simp only [not_or, Option.not_isSome_iff_eq_none] at ready
      exact ⟨supervised, apart ready.2, .inl rfl⟩
  | queue other sequence now timeoutMs =>
    simp only [Supervisor.step] at h
    split at h
    · cases h
    · next absent =>
      cases h
      rw [Option.not_isSome_iff_eq_none] at absent
      exact ⟨supervised, apart absent, .inl rfl⟩
  | run other step =>
    obtain ⟨before, later, permits, there, moves, -, rfl⟩ := step_run h
    by_cases same : run = other
    · subst same
      rw [here, Option.some.injEq] at there
      subst there
      refine ⟨later, ?_, .inr ⟨step, rfl, moves⟩⟩
      exact (s.lookup_insert_at run later run).trans (Function.update_self ..)
    · refine ⟨supervised, ?_, .inl rfl⟩
      exact (s.lookup_insert_at other later run).trans
        ((Function.update_of_ne same _ _).trans here)

theorem forall_step {P : SupervisedRun → Prop} (h : s.step event = some t)
    (queued : ∀ run sequence now timeoutMs outputLimit immediatePermit,
      P (.queued run sequence now timeoutMs outputLimit immediatePermit))
    (moves : ∀ run step supervised later, event = .run run step → supervised.Moves step later →
      P supervised → P later)
    (all : ∀ run supervised, s.runs.lookup run = some supervised → P supervised) :
    ∀ run supervised, t.runs.lookup run = some supervised → P supervised := by
  have inserted {other : RunId} {added : SupervisedRun} (fresh : P added) (run : RunId)
      (supervised : SupervisedRun)
      (here : (s.insert other added).runs.lookup run = some supervised) : P supervised := by
    rw [lookup_insert_at] at here
    by_cases same : run = other
    · rw [same, Function.update_self, Option.some.injEq] at here
      rwa [← here]
    · rw [Function.update_of_ne same] at here
      exact all run supervised here
  cases event with
  | acquire =>
    simp only [Supervisor.step] at h
    split at h
    · cases h
    · cases h; exact all
  | start other sequence now timeoutMs =>
    simp only [Supervisor.step] at h
    split at h
    · cases h
    · cases h; exact inserted (queued ..)
  | queue other sequence now timeoutMs =>
    simp only [Supervisor.step] at h
    split at h
    · cases h
    · cases h; exact inserted (queued ..)
  | run other step =>
    obtain ⟨before, later, permits, there, moved, -, rfl⟩ := step_run h
    exact inserted (moves other step before later rfl moved (all other before there))

theorem after_append (s : Supervisor) (events more : List SupervisorEvent) :
    s.after (events ++ more) = (s.after events).after more :=
  List.foldl_append

theorem after_invariant {P : Supervisor → Prop} {events : List SupervisorEvent}
    (step : ∀ s t event, event ∈ events → s.step event = some t → P s → P t) (start : P s) :
    P (s.after events) := by
  induction events generalizing s with
  | nil => exact start
  | cons event rest ih =>
    refine ih (fun s t event mem => step s t event (List.mem_cons_of_mem _ mem)) ?_
    simp only
    cases next : s.step event with
    | none => exact start
    | some t => exact step s t event List.mem_cons_self next start

def Sound (s : Supervisor) : Prop :=
  ∀ run supervised, s.runs.lookup run = some supervised → supervised.Sound

theorem Sound.step (sound : s.Sound) (h : s.step event = some t) : t.Sound :=
  forall_step h SupervisedRun.sound_queued (fun _ _ _ _ _ moves sound => sound.moves moves) sound

theorem lookup_new (maxOutputChars : Nat) (run : RunId) :
    (new maxOutputChars).runs.lookup run = none :=
  AList.lookup_empty run

theorem sound_new (maxOutputChars : Nat) : (new maxOutputChars).Sound := by
  intro run supervised here
  rw [lookup_new] at here
  cases here

theorem sound_after (maxOutputChars : Nat) (events : List SupervisorEvent) :
    ((new maxOutputChars).after events).Sound :=
  after_invariant (fun _ _ _ _ h sound => sound.step h) (sound_new maxOutputChars)

theorem lookup_after {P : SupervisedRun → Prop} (sound : s.Sound) {run : RunId}
    {supervised : SupervisedRun} (here : s.runs.lookup run = some supervised)
    (moves : ∀ step supervised later, supervised.Sound → supervised.Moves step later →
      P supervised → P later) (start : P supervised) (events : List SupervisorEvent) :
    ∃ later, (s.after events).runs.lookup run = some later ∧ P later := by
  refine (after_invariant (P := fun s => s.Sound ∧
    ∃ later, s.runs.lookup run = some later ∧ P later) ?_ ⟨sound, supervised, here, start⟩).2
  rintro s t event - h ⟨sound, current, here, kept⟩
  obtain ⟨later, there, rfl | ⟨step, -, moved⟩⟩ := lookup_step h here
  · exact ⟨sound.step h, later, there, kept⟩
  · exact ⟨sound.step h, later, there, moves step current later (sound run current here) moved kept⟩

/-- While no task is abandoned, a process runs only under the permit. -/
structure Orderly (s : Supervisor) : Prop where
  sound : s.Sound
  runsProcess : ∀ run supervised, s.runs.lookup run = some supervised →
    supervised.record.process.isSome = true → supervised.runsProcess
  exclusive : Permit.Exclusive (fun run : SupervisedRun => run.task.holdsPermit = true) s.pool

theorem orderly_new (maxOutputChars : Nat) : (new maxOutputChars).Orderly := by
  have vacant (run : RunId) (supervised : SupervisedRun)
      (here : (new maxOutputChars).runs.lookup run = some supervised) : False := by
    rw [lookup_new] at here
    cases here
  exact ⟨sound_new maxOutputChars, fun run supervised here => (vacant run supervised here).elim,
    ⟨Nat.le_refl 1, fun run supervised here => (vacant run supervised here).elim,
      fun run _ supervised _ here => (vacant run supervised here).elim⟩⟩

theorem Orderly.step (orderly : s.Orderly) (h : s.step event = some t)
    (kept : ∀ run, event ≠ .run run .abandon) : t.Orderly := by
  refine ⟨orderly.sound.step h, ?_, orderly.exclusive.step (pool_step h)⟩
  have both := forall_step (P := fun run => run.Sound ∧
    (run.record.process.isSome = true → run.runsProcess)) h
    (fun run sequence now timeoutMs outputLimit immediatePermit =>
      ⟨SupervisedRun.sound_queued run sequence now timeoutMs outputLimit immediatePermit, nofun⟩)
    (fun run step before later eq moves inv => ⟨inv.1.moves moves,
      SupervisedRun.runsProcess_moves inv.1 moves (fun abandon => kept run (by rw [eq, abandon]))
        inv.2⟩)
    fun run supervised here =>
      ⟨orderly.sound run supervised here, orderly.runsProcess run supervised here⟩
  exact fun run supervised here => (both run supervised here).2

theorem orderly_after (maxOutputChars : Nat) {events : List SupervisorEvent}
    (kept : ∀ run, .run run .abandon ∉ events) : ((new maxOutputChars).after events).Orderly :=
  after_invariant (fun _ _ _ mem h orderly => orderly.step h fun run abandon =>
    kept run (abandon ▸ mem)) (orderly_new maxOutputChars)

theorem Orderly.unique (orderly : s.Orderly) {run other : RunId}
    {supervised another : SupervisedRun} (here : s.runs.lookup run = some supervised)
    (there : s.runs.lookup other = some another)
    (occupied : supervised.record.process.isSome = true)
    (occupied' : another.record.process.isSome = true) : run = other :=
  orderly.exclusive.unique run other supervised another here there
    (SupervisedRun.holdsPermit_of_runsProcess (orderly.runsProcess run supervised here occupied))
    (SupervisedRun.holdsPermit_of_runsProcess (orderly.runsProcess other another there occupied'))

theorem Sound.continues (sound : s.Sound) {id : RunId} {run : SupervisedRun}
    (here : s.runs.lookup id = some run) (more : List SupervisorEvent) :
    ∃ later, (s.after more).runs.lookup id = some later ∧ run.Continues later := by
  have keeps := sound id run here
  obtain ⟨later, there, persists, doomed⟩ := lookup_after (P := fun later =>
    run.record.Persists later.record ∧ (run.Doomed → later.Doomed)) sound here
    (fun _ _ _ sound moves kept => ⟨kept.1.trans moves.persists, fun doomed =>
      (kept.2 doomed).moves sound moves⟩)
    ⟨.refl run.record, fun doomed => doomed⟩ more
  refine ⟨later, there, fun ended => ?_, persists.cancelRequested, fun requested waiting => ?_⟩
  · refine ⟨persists.status ended, persists.exitCode ended, persists.endedAt ended, ?_⟩
    rw [persists.process ended, keeps.consistent.released ended]
  · have fits := keeps.fits
    rw [SupervisedRun.Fits, waiting] at fits
    exact (doomed ⟨requested, fits.2.1, .inl waiting⟩).unlaunched

end Supervisor

theorem lifecycle_sound (maxOutputChars : Nat) (events more : List SupervisorEvent) :
    let s := (Supervisor.new maxOutputChars).after events
    (∀ id run, s.runs.lookup id = some run → run.Lifecycle ∧
      ∃ later, ((Supervisor.new maxOutputChars).after (events ++ more)).runs.lookup id =
        some later ∧ run.Continues later) ∧
    ((∀ id, .run id .abandon ∉ events) → ∀ id other run another,
      s.runs.lookup id = some run → s.runs.lookup other = some another →
      run.record.process.isSome = true → another.record.process.isSome = true → id = other) := by
  intro s
  have sound := Supervisor.sound_after maxOutputChars events
  refine ⟨fun id run here => ⟨(sound id run here).lifecycle, ?_⟩,
    fun kept id other run another here there occupied occupied' => ?_⟩
  · rw [Supervisor.after_append]
    exact sound.continues here more
  · exact (Supervisor.orderly_after maxOutputChars kept).unique here there occupied occupied'

end CodeWeave
