import CodeWeave.Defs.Bash.Output

/-! The supervisor: the runs' execution tasks, the permit they share, and the clients
that start, cancel and poll them, one step after another. -/

namespace CodeWeave

inductive Task
  | waiting
  | permitted
  | cleared
  | launched (group : ProcessGroup) (warning : Option String)
  | started (cancelAfterSpawn : Bool)
  | awaiting
  | stopping
  | draining (outcome : ProcessOutcome)
  | failing (permit : Bool) (message : String)
  | closing (permit : Bool)
  | dropped
  | over

namespace Task

def holdsPermit : Task → Bool
  | .permitted | .cleared | .launched _ _ | .started _ | .awaiting | .stopping | .draining _ => true
  | .failing permit _ | .closing permit => permit
  | .waiting | .dropped | .over => false

/-- Where the task awaits something or calls the launcher: there it may be dropped or
panic. Between a launch and the stop request after it, it does neither. -/
def abandonable : Task → Bool
  | .waiting | .permitted | .cleared | .awaiting | .stopping | .draining _ => true
  | .launched _ _ | .started _ | .failing _ _ | .closing _ | .dropped | .over => false

end Task

/-- A run with its execution task. `asking` counts the cancels that are about to ask its
process group to terminate; `launched`, `begun` and `asked` are ghosts: the group it was
launched with, whether `start_process` has been called, and whether the group has been
asked. -/
structure SupervisedRun where
  record : RunRecord
  output : RunOutput
  task : Task
  timeoutMs : Nat
  retained : Bool
  asking : Nat
  launched : Option ProcessGroup
  begun : Bool
  asked : Bool

inductive RunStep
  | takePermit
  | queueClosed
  | check (now : Timestamp)
  | launch (launched : Except String (ProcessGroup × Option String))
  | startProcess (now : Timestamp)
  | proceed
  | exited (code : Option Int) (success : Bool)
  | waitFailed (error : String)
  | elapsed
  | stopped
  | drained (now : Timestamp) (warning : Option String)
  | finalize (now : Timestamp)
  | release
  | guardDropped (now : Timestamp)
  | abandon
  | cancel (now : Timestamp)
  | terminate
  | collect (pipe : Pipe) (chunk : Option (List UInt8))
  | evict

namespace SupervisedRun

def queued (run : RunId) (sequence : Nat) (now : Timestamp) (timeoutMs outputLimit : Nat)
    (immediatePermit : Bool) : SupervisedRun where
  record := .queued run sequence now none
  output := .new outputLimit
  task := if immediatePermit then .permitted else .waiting
  timeoutMs := timeoutMs
  retained := true
  asking := 0
  launched := none
  begun := false
  asked := false

variable (run : SupervisedRun)

-- The cancel reads the group under the record's lock and asks it after.
def cancel (now : Timestamp) : SupervisedRun :=
  match run.record.requestCancel now with
  | (.alreadyTerminal, record) => { run with record := record }
  | (.requested none, record) => { run with record := record }
  | (.requested (some _), record) => { run with record := record, asking := run.asking + 1 }

def step : RunStep → Option SupervisedRun
  | .takePermit =>
    match run.task with
    | .waiting => some { run with task := .permitted }
    | _ => none
  | .queueClosed =>
    match run.task with
    | .waiting => some { run with task := .failing false "Bash execution queue is unavailable" }
    | _ => none
  | .check now =>
    match run.task with
    | .permitted =>
      let (cancelled, record) := run.record.finishIfCancelledBeforeStart now
      some { run with record := record, task := if cancelled then .closing true else .cleared }
    | _ => none
  | .launch launched =>
    match run.task, launched with
    | .cleared, .ok (group, warning) =>
      some { run with task := .launched group warning, launched := some group }
    | .cleared, .error message => some { run with task := .failing true message }
    | _, _ => none
  | .startProcess now =>
    match run.task with
    | .launched group warning =>
      let record := warning.elim run.record run.record.addNote
      let (cancelAfterSpawn, record) := record.startProcess now group
      some { run with record := record, task := .started cancelAfterSpawn, begun := true }
    | _ => none
  | .proceed =>
    match run.task with
    | .started cancelAfterSpawn =>
      some { run with task := .awaiting, asked := run.asked || cancelAfterSpawn }
    | _ => none
  | .exited code success =>
    match run.task with
    | .awaiting => some { run with task := .draining (.exited code success) }
    | _ => none
  | .waitFailed error =>
    match run.task with
    | .awaiting => some { run with task := .draining (.waitFailed error) }
    | _ => none
  | .elapsed =>
    match run.task with
    | .awaiting => some { run with task := .stopping, asked := true }
    | _ => none
  | .stopped =>
    match run.task with
    | .stopping => some { run with task := .draining (.timedOut run.timeoutMs) }
    | _ => none
  | .drained now warning =>
    match run.task with
    | .draining outcome =>
      let record := warning.elim run.record run.record.addNote
      some { run with record := (record.finishProcess now outcome).2, task := .closing true }
    | _ => none
  | .finalize now =>
    match run.task with
    | .failing permit message =>
      some { run with record := run.record.execute (.failed now message), task := .closing permit }
    | _ => none
  | .release =>
    match run.task with
    | .closing _ => some { run with task := .dropped }
    | _ => none
  | .guardDropped now =>
    match run.task with
    | .dropped => some { run with record := run.record.execute (.abandoned now), task := .over }
    | _ => none
  | .abandon =>
    if run.task.abandonable then some { run with task := .closing run.task.holdsPermit } else none
  | .cancel now => if run.retained then some (run.cancel now) else none
  | .terminate =>
    match run.asking with
    | 0 => none
    | asking + 1 => some { run with asking := asking, asked := true }
  | .collect pipe chunk =>
    if run.begun then
      some { run with output :=
        match chunk with
        | some bytes => run.output.ingest pipe bytes
        | none => run.output.finish pipe }
    else none
  | .evict => if run.record.endedAt.isSome then some { run with retained := false } else none

end SupervisedRun

structure Supervisor where
  runs : Table RunId SupervisedRun
  permits : Nat
  starting : Nat
  maxOutputChars : Nat

inductive SupervisorEvent
  | acquire
  | start (run : RunId) (sequence : Nat) (now : Timestamp) (timeoutMs : Nat)
  | queue (run : RunId) (sequence : Nat) (now : Timestamp) (timeoutMs : Nat)
  | run (run : RunId) (step : RunStep)

namespace Supervisor

def new (maxOutputChars : Nat) : Supervisor := ⟨∅, 1, 0, maxOutputChars⟩

variable (s : Supervisor)

def permitsAfter (run : SupervisedRun) : RunStep → Option Nat
  | .takePermit => if s.permits = 0 then none else some (s.permits - 1)
  | .release => some (if run.task.holdsPermit then s.permits + 1 else s.permits)
  | _ => some s.permits

def insert (run : RunId) (supervised : SupervisedRun) : Supervisor :=
  { s with runs := s.runs.insert run supervised }

def step : SupervisorEvent → Option Supervisor
  | .acquire =>
    if s.permits = 0 then none
    else some { s with permits := s.permits - 1, starting := s.starting + 1 }
  | .start run sequence now timeoutMs =>
    if s.starting = 0 ∨ (s.runs.lookup run).isSome then none
    else some { s.insert run (.queued run sequence now timeoutMs s.maxOutputChars true) with
      starting := s.starting - 1 }
  | .queue run sequence now timeoutMs =>
    if (s.runs.lookup run).isSome then none
    else some (s.insert run (.queued run sequence now timeoutMs s.maxOutputChars false))
  | .run run step => do
    let supervised ← s.runs.lookup run
    let later ← supervised.step step
    let permits ← s.permitsAfter supervised step
    some { s.insert run later with permits := permits }

def after (events : List SupervisorEvent) : Supervisor :=
  events.foldl (fun s event => (s.step event).getD s) s

end Supervisor

end CodeWeave
