import CodeWeave.Defs.Intelligence.Turns
import CodeWeave.Defs.Intelligence.Worker
import CodeWeave.Lib.Runs

namespace CodeWeave

namespace WorkerRuntime

open Server

variable {context : RequestContext} {contentHash : Text → ContentHash}

def Alive (context : RequestContext) (contentHash : Text → ContentHash) (worker : WorkerRuntime) :
    Prop :=
  ∀ server, worker.server = .ready server → Life context contentHash server

theorem Alive.takeServer {worker : WorkerRuntime} (alive : worker.Alive context contentHash)
    (spawned : Spawned) :
    (worker.takeServer context spawned).2.server = .stopped ∧
      ∀ server, (worker.takeServer context spawned).1 = .ok server →
        Life context contentHash server := by
  unfold WorkerRuntime.takeServer
  cases kept : worker.server with
  | ready server =>
    refine ⟨rfl, fun taken eq => ?_⟩
    cases eq
    exact alive server kept
  | stopped =>
    cases spawned.outcome with
    | error error => exact ⟨rfl, fun _ eq => by cases eq⟩
    | ok process =>
      cases started : initializeServer context spawned.elapsedMs (.fresh process) with
      | error error server => exact ⟨by simp [started], by simp [started]⟩
      | ok result server =>
        have talks := (keeps_initializeServer context _ spawned.elapsedMs).ok .refl started
        refine ⟨by simp [started], fun taken eq => ?_⟩
        simp only [started, Except.ok.injEq] at eq
        exact eq ▸ .started talks

theorem Alive.executeOnce {worker : WorkerRuntime} (alive : worker.Alive context contentHash)
    (operation : WorkerOperation) (document : DocumentSnapshot contentHash) (spawned : Spawned) :
    (worker.executeOnce context operation document spawned).2.Alive context contentHash := by
  obtain ⟨stopped, lives⟩ := alive.takeServer spawned
  unfold WorkerRuntime.executeOnce
  rcases taken : worker.takeServer context spawned with ⟨_ | server, later⟩
  · rw [taken] at stopped
    intro server kept
    rw [stopped] at kept
    cases kept
  · rw [taken] at stopped lives
    have life := lives server rfl
    cases done : execute context document operation server with
    | ok response t =>
      intro kept eq
      simp only [done, ServerState.ready.injEq] at eq
      exact eq ▸ life.execute_ok done
    | error error t =>
      cases discarded : discards error with
      | true =>
        intro kept eq
        simp only [done, discarded, if_true] at eq
        rw [stopped] at eq
        cases eq
      | false =>
        intro kept eq
        simp only [done, discarded, Bool.false_eq_true, if_false, ServerState.ready.injEq] at eq
        simp only [discards, Bool.or_eq_false_iff] at discarded
        exact eq ▸ life.execute_error done discarded.1

def Answers (context : RequestContext) (operation : WorkerOperation)
    (document : DocumentSnapshot contentHash) (response : WorkerResponse) (later : WorkerRuntime) :
    Prop :=
  ∃ s t, Life context contentHash s ∧ execute context document operation s = .ok response t ∧
    later.server = .ready t

theorem Alive.executeOnce_ok {worker later : WorkerRuntime} {operation : WorkerOperation}
    {document : DocumentSnapshot contentHash} {spawned : Spawned} {response : WorkerResponse}
    (alive : worker.Alive context contentHash)
    (ok : worker.executeOnce context operation document spawned = (.ok response, later)) :
    Answers context operation document response later := by
  obtain ⟨-, lives⟩ := alive.takeServer spawned
  unfold WorkerRuntime.executeOnce at ok
  split at ok
  · cases ok
  · next server _ taken =>
    rw [taken] at lives
    split at ok
    · next answer t done =>
      cases ok
      exact ⟨server, t, lives server rfl, done, rfl⟩
    · split at ok <;> cases ok

theorem recordFailure_server (error : WorkerError) (restarting : Bool) (worker : WorkerRuntime) :
    (worker.recordFailure error restarting).server = worker.server := by
  unfold recordFailure
  cases worker.server <;> rfl

theorem recordResult_server {A : Type} (result : Except WorkerError A) (worker : WorkerRuntime) :
    (worker.recordResult result).server = worker.server := by
  cases result with
  | error error => exact recordFailure_server error false worker
  | ok _ =>
    unfold recordResult recordSuccess
    cases worker.server <;> rfl

theorem Alive.of_server {worker later : WorkerRuntime} (alive : worker.Alive context contentHash)
    (same : later.server = worker.server) : later.Alive context contentHash :=
  fun server kept => alive server (same ▸ kept)

theorem executeWithRestart_cases (command : Command contentHash) (worker : WorkerRuntime) :
    (∃ result later, worker.executeOnce context command.operation command.document
        command.io.first = (result, later) ∧
      worker.executeWithRestart context command = (result, later.recordResult result)) ∨
    ∃ failure later result last, worker.executeOnce context command.operation command.document
        command.io.first = (.error failure, later) ∧
      (later.recordFailure failure true).executeOnce context command.operation command.document
        command.io.second = (result, last) ∧
      worker.executeWithRestart context command = (result, last.recordResult result) := by
  unfold executeWithRestart
  rcases first : worker.executeOnce context command.operation command.document
    command.io.first with ⟨failure | response, later⟩
  · cases retried : failure.restartable && command.io.retries with
    | true =>
      rcases second : (later.recordFailure failure true).executeOnce context command.operation
        command.document command.io.second with ⟨result, last⟩
      exact .inr ⟨failure, later, result, last, rfl, second, by simp only [retried, second, if_true]⟩
    | false =>
      exact .inl ⟨_, later, rfl, by simp only [retried, Bool.false_eq_true, if_false]⟩
  · exact .inl ⟨_, later, rfl, rfl⟩

theorem Alive.executeWithRestart {worker : WorkerRuntime} (command : Command contentHash)
    (alive : worker.Alive context contentHash) :
    (worker.executeWithRestart context command).2.Alive context contentHash := by
  have once := alive.executeOnce command.operation command.document command.io.first
  rcases executeWithRestart_cases command worker with
    ⟨answer, middle, first, eq⟩ | ⟨failure, middle, answer, last, first, second, eq⟩
  · rw [first] at once
    rw [eq]
    exact once.of_server (recordResult_server _ _)
  · rw [first] at once
    have again := (once.of_server (recordFailure_server failure true middle)).executeOnce
      command.operation command.document command.io.second
    rw [second] at again
    rw [eq]
    exact again.of_server (recordResult_server _ _)

theorem Answers.of_server {operation : WorkerOperation} {document : DocumentSnapshot contentHash}
    {response : WorkerResponse} {worker later : WorkerRuntime}
    (answers : Answers context operation document response worker)
    (same : later.server = worker.server) :
    Answers context operation document response later := by
  obtain ⟨s, t, life, done, kept⟩ := answers
  exact ⟨s, t, life, done, same.trans kept⟩

theorem Alive.executeWithRestart_ok {worker : WorkerRuntime} {command : Command contentHash}
    {response : WorkerResponse} (alive : worker.Alive context contentHash)
    (ok : (worker.executeWithRestart context command).1 = .ok response) :
    Answers context command.operation command.document response
      (worker.executeWithRestart context command).2 := by
  rcases executeWithRestart_cases command worker with
    ⟨answer, middle, first, eq⟩ | ⟨failure, middle, answer, last, first, second, eq⟩
  · rw [eq] at ok ⊢
    cases ok
    exact (alive.executeOnce_ok first).of_server (recordResult_server _ _)
  · have once := alive.executeOnce command.operation command.document command.io.first
    rw [first] at once
    rw [eq] at ok ⊢
    cases ok
    exact ((once.of_server (recordFailure_server failure true middle)).executeOnce_ok
      second).of_server (recordResult_server _ _)

theorem Alive.step {worker later : WorkerRuntime}
    {answered : Command contentHash × Except WorkerError WorkerResponse}
    (alive : worker.Alive context contentHash) (step : Step context worker answered later) :
    later.Alive context contentHash := by
  obtain ⟨command, result⟩ := answered
  simp only [Step, WorkerRuntime.run] at step
  split at step
  · cases step
    exact alive
  · split at step
    · cases step
      exact alive
    · have ends := alive.executeWithRestart command
      cases step
      exact ends.of_server rfl

theorem Alive.step_ok {worker later : WorkerRuntime} {command : Command contentHash}
    {response : WorkerResponse} (alive : worker.Alive context contentHash)
    (step : Step context worker (command, .ok response) later) :
    Answers context command.operation command.document response later := by
  simp only [Step, WorkerRuntime.run] at step
  split at step
  · cases step
  · split at step
    · cases step
    · have answers := alive.executeWithRestart_ok (congrArg Prod.fst step)
      cases congrArg Prod.snd step
      exact answers.of_server rfl

theorem Answers.hash {operation : WorkerOperation} {document : DocumentSnapshot contentHash}
    {response : WorkerResponse} {later : WorkerRuntime}
    (answers : Answers context operation document response later) :
    response.synchronized.hash = document.hash := by
  obtain ⟨s, t, -, done, -⟩ := answers
  rw [((spec_execute context s document operation).ok rfl done).2.1]
  rfl

theorem run_runAll (context : RequestContext) (commands : List (Command contentHash))
    (worker : WorkerRuntime) :
    ∃ answered : List (Command contentHash × Except WorkerError WorkerResponse),
      Runs.Run (Step context) worker answered (worker.runAll context commands) := by
  induction commands using List.reverseRecOn with
  | nil => exact ⟨[], .nil _⟩
  | append_singleton commands command ih =>
    obtain ⟨answered, run⟩ := ih
    have last : Step context (worker.runAll context commands)
        (command, ((worker.runAll context commands).run context command).1)
        (worker.runAll context (commands ++ [command])) := by
      simp only [runAll, List.foldl_append]
      rfl
    exact ⟨_, run.snoc last⟩

theorem alive_of_run {worker : WorkerRuntime}
    {answered : List (Command contentHash × Except WorkerError WorkerResponse)}
    (run : Runs.Run (Step context) .new answered worker) : worker.Alive context contentHash :=
  run.invariant (Alive context contentHash) (fun _ _ _ alive step => alive.step step)
    fun _ kept => by cases kept

end WorkerRuntime

end CodeWeave
