import CodeWeave.Defs.Bash.Lifecycle

namespace CodeWeave

namespace RunRecord

/-- An ended run has an end time and no process, and a cancel shows in the status. -/
structure Consistent (record : RunRecord) : Prop where
  ended : record.endedAt.isSome = record.status.isTerminal
  released : record.status.isTerminal = true → record.process = none
  requested : record.cancelRequested = true →
    record.status = .cancelling ∨ record.status = .cancelled ∨ record.status = .failed
  cancelling : record.status = .cancelling → record.cancelRequested = true

structure Persists (record later : RunRecord) : Prop where
  status : record.status.isTerminal = true → later.status = record.status
  exitCode : record.status.isTerminal = true → later.exitCode = record.exitCode
  endedAt : record.status.isTerminal = true → later.endedAt = record.endedAt
  process : record.status.isTerminal = true → later.process = record.process
  cancelRequested : record.cancelRequested = true → later.cancelRequested = true

variable {record later last : RunRecord}

theorem Persists.refl (record : RunRecord) : record.Persists record :=
  ⟨fun _ => rfl, fun _ => rfl, fun _ => rfl, fun _ => rfl, id⟩

theorem Persists.trans (first : record.Persists later) (second : later.Persists last) :
    record.Persists last := by
  have still (ended : record.status.isTerminal = true) : later.status.isTerminal = true := by
    rw [first.status ended, ended]
  exact ⟨fun ended => (second.status (still ended)).trans (first.status ended),
    fun ended => (second.exitCode (still ended)).trans (first.exitCode ended),
    fun ended => (second.endedAt (still ended)).trans (first.endedAt ended),
    fun ended => (second.process (still ended)).trans (first.process ended),
    fun requested => second.cancelRequested (first.cancelRequested requested)⟩

theorem consistent_queued (runId : RunId) (sequence : Nat) (now : Timestamp)
    (captured : Option ChangeBaseline) : (queued runId sequence now captured).Consistent :=
  ⟨rfl, fun _ => rfl, nofun, nofun⟩

variable (record) (now : Timestamp)

theorem transition_of_not {next : RunStatus} (illegal : record.status.canBecome next = false) :
    record.transition now next = (false, record) := by
  rw [transition, if_neg (by simp [illegal])]

theorem finish_of_not {status : RunStatus} (exitCode : Option Int) (note : Option String)
    (illegal : record.status.canBecome status = false) :
    record.finish now status exitCode note = (false, record) := by
  rw [finish, record.transition_of_not now illegal]

theorem finish_of {status : RunStatus} (exitCode : Option Int) (note : Option String)
    (legal : record.status.canBecome status = true) (terminal : status.isTerminal = true) :
    record.finish now status exitCode note = (true, { record with
      status := status, endedAt := some now, process := none, exitCode := exitCode
      notes := record.notes ++ note.toList }) := by
  rw [finish, transition, if_pos legal]
  simp only [terminal, if_true]

variable {record}

theorem Consistent.finish (consistent : record.Consistent) {status : RunStatus}
    (terminal : status.isTerminal = true) (exitCode : Option Int) (note : Option String) :
    (record.finish now status exitCode note).2.Consistent := by
  cases legal : record.status.canBecome status with
  | false => rwa [record.finish_of_not now exitCode note legal]
  | true =>
    rw [record.finish_of now exitCode note legal terminal]
    refine ⟨by simp [terminal], fun _ => rfl, fun requested => ?_, fun cancelling => ?_⟩
    · rcases consistent.requested requested with eq | eq | eq
      · rw [eq] at legal
        cases status <;> simp_all [RunStatus.canBecome]
      · rw [eq] at legal
        cases legal
      · rw [eq] at legal
        cases legal
    · simp only at cancelling
      rw [cancelling] at terminal
      cases terminal

theorem persists_finish {status : RunStatus} (terminal : status.isTerminal = true)
    (exitCode : Option Int) (note : Option String) :
    record.Persists (record.finish now status exitCode note).2 := by
  cases legal : record.status.canBecome status with
  | false =>
    rw [record.finish_of_not now exitCode note legal]
    exact .refl record
  | true =>
    rw [record.finish_of now exitCode note legal terminal]
    have moving (ended : record.status.isTerminal = true) : False := by
      rw [RunStatus.not_canBecome_of_isTerminal ended] at legal
      cases legal
    exact ⟨fun ended => (moving ended).elim, fun ended => (moving ended).elim,
      fun ended => (moving ended).elim, fun ended => (moving ended).elim, id⟩

theorem finishProcess_eq (record : RunRecord) (outcome : ProcessOutcome) : ∃ status exitCode note,
    status.isTerminal = true ∧
      record.finishProcess now outcome = record.finish now status exitCode note ∧
      (record.cancelRequested = true → RunStatus.cancelling.canBecome status = true) ∧
      (record.cancelRequested = false → RunStatus.running.canBecome status = true) := by
  cases outcome with
  | exited code success =>
    cases requested : record.cancelRequested with
    | true =>
      refine ⟨.cancelled, code, some cancelledNote, rfl, ?_, fun _ => rfl, nofun⟩
      simp only [finishProcess, requested, if_true]
    | false =>
      refine ⟨if success then .succeeded else .failed, code, none, ?_, ?_, nofun, fun _ => ?_⟩
      · cases success <;> rfl
      · simp [finishProcess, requested]
      · cases success <;> rfl
  | waitFailed error => exact ⟨.failed, _, _, rfl, rfl, fun _ => rfl, fun _ => rfl⟩
  | timedOut timeoutMs =>
    cases requested : record.cancelRequested with
    | true =>
      refine ⟨.cancelled, none, some cancelledNote, rfl, ?_, fun _ => rfl, nofun⟩
      simp only [finishProcess, requested, if_true]
    | false =>
      refine ⟨.timedOut, none, some ("Bash run exceeded timeout of " ++ toString timeoutMs ++
        " ms; partial output was retained."), rfl, ?_, nofun, fun _ => rfl⟩
      simp only [finishProcess, requested, Bool.false_eq_true, if_false]

theorem Consistent.finishProcess_ends (consistent : record.Consistent)
    (left_queue : record.status ≠ .queued) (active : record.status.isTerminal = false)
    (outcome : ProcessOutcome) : (record.finishProcess now outcome).1 = true ∧
      (record.finishProcess now outcome).2.status.isTerminal = true ∧
      (record.finishProcess now outcome).2.process = none := by
  obtain ⟨status, exitCode, note, terminal, finish, cancelled, uncancelled⟩ :=
    record.finishProcess_eq now outcome
  have legal : record.status.canBecome status = true := by
    cases requested : record.cancelRequested with
    | true =>
      rcases consistent.requested requested with eq | eq | eq
      · rw [eq]; exact cancelled requested
      · rw [eq] at active; cases active
      · rw [eq] at active; cases active
    | false =>
      have running : record.status = .running := by
        cases eq : record.status with
        | running => rfl
        | queued => exact absurd eq left_queue
        | cancelling => rw [consistent.cancelling eq] at requested; cases requested
        | _ => rw [eq] at active; cases active
      rw [running]
      exact uncancelled requested
  rw [finish, record.finish_of now exitCode note legal terminal]
  exact ⟨rfl, terminal, rfl⟩

def startStatus (record : RunRecord) : RunStatus :=
  if record.cancelRequested = false ∧ record.status = .queued then .running else record.status

theorem startStatus_isTerminal (record : RunRecord) :
    record.startStatus.isTerminal = record.status.isTerminal := by
  rw [startStatus]
  split
  · next fresh => rw [fresh.2]; rfl
  · rfl

theorem startProcess_eq (record : RunRecord) (group : ProcessGroup) :
    record.startProcess now group = (record.cancelRequested, { record with
      startedAt := now, status := record.startStatus
      process := if record.status.isTerminal then record.process else some group }) := by
  simp only [startProcess, startStatus, transition]
  cases requested : record.cancelRequested with
  | true => cases status : record.status <;> simp [RunStatus.isTerminal]
  | false => cases status : record.status <;> simp [RunStatus.isTerminal, RunStatus.canBecome]

theorem Consistent.startStatus_ne_queued (consistent : record.Consistent) :
    record.startStatus ≠ .queued := by
  rw [startStatus]
  split
  · nofun
  · next stale =>
    intro queued
    cases requested : record.cancelRequested with
    | false => exact stale ⟨requested, queued⟩
    | true =>
      rcases consistent.requested requested with eq | eq | eq <;> rw [eq] at queued <;>
        cases queued

theorem Consistent.startProcess (consistent : record.Consistent) (group : ProcessGroup) :
    (record.startProcess now group).2.Consistent := by
  rw [startProcess_eq]
  refine ⟨?_, fun ended => ?_, fun requested => ?_, fun cancelling => ?_⟩
  · rw [startStatus_isTerminal]; exact consistent.ended
  · rw [startStatus_isTerminal] at ended
    simp only [ended, if_true]
    exact consistent.released ended
  · simp only at requested ⊢
    rw [startStatus, if_neg (by simp [requested])]
    exact consistent.requested requested
  · simp only [startStatus] at cancelling
    split at cancelling
    · cases cancelling
    · exact consistent.cancelling cancelling

theorem persists_startProcess (group : ProcessGroup) :
    record.Persists (record.startProcess now group).2 := by
  rw [startProcess_eq]
  have status (ended : record.status.isTerminal = true) : record.startStatus = record.status := by
    rw [startStatus, if_neg fun fresh => by rw [fresh.2] at ended; cases ended]
  exact ⟨status, fun _ => rfl, fun _ => rfl, fun ended => by simp only [ended, if_true], id⟩

theorem requestCancel_eq (record : RunRecord) : record.requestCancel now =
    if record.status.isTerminal then (.alreadyTerminal, record)
    else (.requested record.process, { record with
      status := .cancelling
      cancelRequested := record.cancelRequested || record.status ≠ .cancelling }) := by
  obtain ⟨_, _, _, status, _, _, _, _, _, _, _, _, _⟩ := record
  cases status <;> simp [requestCancel, transition, RunStatus.isTerminal, RunStatus.canBecome]

theorem Consistent.requestCancel (consistent : record.Consistent) :
    (record.requestCancel now).2.Consistent := by
  rw [requestCancel_eq]
  split
  · exact consistent
  · next active =>
    have unended : record.endedAt.isSome = false := by
      rw [consistent.ended]
      exact Bool.eq_false_of_not_eq_true active
    refine ⟨unended, nofun, fun _ => .inl rfl, fun _ => ?_⟩
    by_cases cancelling : record.status = .cancelling
    · simp [consistent.cancelling cancelling]
    · simp [cancelling]

theorem isTerminal_requestCancel (record : RunRecord) :
    (record.requestCancel now).2.status.isTerminal = record.status.isTerminal := by
  rw [requestCancel_eq]
  split
  · rfl
  · next active => exact (Bool.eq_false_of_not_eq_true active).symm

theorem process_requestCancel (record : RunRecord) :
    (record.requestCancel now).2.process = record.process := by
  rw [requestCancel_eq]
  split <;> rfl

theorem status_requestCancel_ne_queued (left_queue : record.status ≠ .queued) :
    (record.requestCancel now).2.status ≠ .queued := by
  rw [requestCancel_eq]
  split
  · exact left_queue
  · nofun

theorem persists_requestCancel : record.Persists (record.requestCancel now).2 := by
  rw [requestCancel_eq]
  split
  · exact .refl record
  · next active =>
    exact ⟨fun ended => absurd ended active, fun _ => rfl, fun _ => rfl, fun _ => rfl,
      fun requested => by simp [requested]⟩

theorem Consistent.addNote (consistent : record.Consistent) (note : String) :
    (record.addNote note).Consistent :=
  ⟨consistent.ended, consistent.released, consistent.requested, consistent.cancelling⟩

theorem persists_addNote (note : String) : record.Persists (record.addNote note) :=
  ⟨fun _ => rfl, fun _ => rfl, fun _ => rfl, fun _ => rfl, id⟩

theorem Consistent.warned (consistent : record.Consistent) (warning : Option String) :
    (warning.elim record record.addNote).Consistent := by
  cases warning with
  | none => exact consistent
  | some note => exact consistent.addNote note

theorem persists_warned (warning : Option String) :
    record.Persists (warning.elim record record.addNote) := by
  cases warning with
  | none => exact .refl record
  | some note => exact persists_addNote note

theorem Consistent.finishProcess (consistent : record.Consistent) (outcome : ProcessOutcome) :
    (record.finishProcess now outcome).2.Consistent := by
  obtain ⟨status, exitCode, note, terminal, finish, -⟩ := record.finishProcess_eq now outcome
  rw [finish]
  exact consistent.finish now terminal exitCode note

theorem persists_finishProcess (outcome : ProcessOutcome) :
    record.Persists (record.finishProcess now outcome).2 := by
  obtain ⟨status, exitCode, note, terminal, finish, -⟩ := record.finishProcess_eq now outcome
  rw [finish]
  exact persists_finish now terminal exitCode note

theorem Consistent.execute (consistent : record.Consistent) (execution : Execution) :
    (record.execute execution).Consistent := by
  cases execution with
  | cancelledBeforeStart now =>
    rw [RunRecord.execute, finishIfCancelledBeforeStart]
    split
    · exact consistent.finish now rfl _ _
    · exact consistent
  | processStarted now warning group => exact (consistent.warned warning).startProcess now group
  | processEnded now warning outcome => exact (consistent.warned warning).finishProcess now outcome
  | failed now message => exact consistent.finish now rfl _ _
  | abandoned now => exact consistent.finish now rfl _ _

theorem persists_execute (execution : Execution) : record.Persists (record.execute execution) := by
  cases execution with
  | cancelledBeforeStart now =>
    rw [execute, finishIfCancelledBeforeStart]
    split
    · exact persists_finish now rfl _ _
    · exact .refl record
  | processStarted now warning group =>
    exact (persists_warned warning).trans (persists_startProcess now group)
  | processEnded now warning outcome =>
    exact (persists_warned warning).trans (persists_finishProcess now outcome)
  | failed now message => exact persists_finish now rfl _ _
  | abandoned now => exact persists_finish now rfl _ _

theorem cancelRequested_finish (record : RunRecord) {status : RunStatus}
    (terminal : status.isTerminal = true) (exitCode : Option Int) (note : Option String) :
    (record.finish now status exitCode note).2.cancelRequested = record.cancelRequested := by
  cases legal : record.status.canBecome status with
  | false => rw [record.finish_of_not now exitCode note legal]
  | true => rw [record.finish_of now exitCode note legal terminal]

theorem cancelRequested_warned (record : RunRecord) (warning : Option String) :
    (warning.elim record record.addNote).cancelRequested = record.cancelRequested := by
  cases warning <;> rfl

theorem status_warned (record : RunRecord) (warning : Option String) :
    (warning.elim record record.addNote).status = record.status := by
  cases warning <;> rfl

theorem cancelRequested_execute (record : RunRecord) (execution : Execution) :
    (record.execute execution).cancelRequested = record.cancelRequested := by
  cases execution with
  | cancelledBeforeStart now =>
    rw [execute, finishIfCancelledBeforeStart]
    split
    · exact record.cancelRequested_finish now rfl _ _
    · rfl
  | processStarted now warning group =>
    rw [execute, startProcess_eq]
    exact record.cancelRequested_warned warning
  | processEnded now warning outcome =>
    obtain ⟨status, exitCode, note, terminal, finish, -⟩ :=
      (warning.elim record record.addNote).finishProcess_eq now outcome
    rw [execute, finish, cancelRequested_finish now _ terminal, cancelRequested_warned]
  | failed now message => exact record.cancelRequested_finish now rfl _ _
  | abandoned now => exact record.cancelRequested_finish now rfl _ _

theorem isTerminal_finish (record : RunRecord) {status : RunStatus}
    (forced : status = .cancelled ∨ status = .failed) (exitCode : Option Int)
    (note : Option String) :
    (record.finish now status exitCode note).2.status.isTerminal = true := by
  have terminal : status.isTerminal = true := by rcases forced with rfl | rfl <;> rfl
  cases legal : record.status.canBecome status with
  | false =>
    rw [record.finish_of_not now exitCode note legal]
    rcases forced with rfl | rfl <;> cases eq : record.status <;> rw [eq] at legal <;>
      first | rfl | cases legal
  | true => rw [record.finish_of now exitCode note legal terminal, terminal]

theorem finishIfCancelledBeforeStart_eq (active : record.status.isTerminal = false) :
    (record.finishIfCancelledBeforeStart now).1 = record.cancelRequested ∧
      (record.finishIfCancelledBeforeStart now).2.status.isTerminal = record.cancelRequested := by
  rw [finishIfCancelledBeforeStart]
  cases requested : record.cancelRequested with
  | false => simp only [Bool.false_eq_true, if_false]; exact ⟨trivial, active⟩
  | true =>
    have legal : record.status.canBecome .cancelled = true := by
      cases eq : record.status <;> rw [eq] at active <;> first | rfl | cases active
    rw [if_pos rfl, record.finish_of now none _ legal rfl]
    exact ⟨rfl, rfl⟩

end RunRecord

theorem RunTable.lookup_evict (runs : RunTable) (ended : List RunId) (run : RunId) :
    (runs.evict ended).lookup run = if run ∈ ended then none else runs.lookup run := by
  unfold RunTable.evict
  induction ended generalizing runs with
  | nil => rfl
  | cons first rest ih =>
    refine (ih (runs.erase first)).trans ?_
    by_cases same : run = first
    · rw [same, AList.lookup_erase, ite_self, if_pos List.mem_cons_self]
    · rw [AList.lookup_erase_ne same]
      simp [same]

end CodeWeave
