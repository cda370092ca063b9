import CodeWeave.Defs.Json
import CodeWeave.Defs.State.Attribution
import Mathlib.Data.List.Lex

namespace CodeWeave

inductive RunStatus
  | queued
  | running
  | cancelling
  | succeeded
  | failed
  | timedOut
  | cancelled
  deriving DecidableEq

namespace RunStatus

def asStr : RunStatus → String
  | .queued => "queued"
  | .running => "running"
  | .cancelling => "cancelling"
  | .succeeded => "succeeded"
  | .failed => "failed"
  | .timedOut => "timed_out"
  | .cancelled => "cancelled"

def parse (value : String) : Option RunStatus :=
  [queued, running, cancelling, succeeded, failed, timedOut, cancelled].find?
    fun status => status.asStr = value

def isTerminal : RunStatus → Bool
  | .succeeded | .failed | .timedOut | .cancelled => true
  | .queued | .running | .cancelling => false

def canBecome : RunStatus → RunStatus → Bool
  | .queued, .running | .queued, .cancelling | .queued, .failed | .queued, .cancelled => true
  | .running, .cancelling | .running, .succeeded | .running, .failed | .running, .timedOut
  | .running, .cancelled => true
  | .cancelling, .cancelled | .cancelling, .failed => true
  | _, _ => false

@[simp] theorem parse_asStr (status : RunStatus) : parse status.asStr = some status := by
  cases status <;> rfl

theorem not_canBecome_of_isTerminal {status : RunStatus} (terminal : status.isTerminal = true)
    (next : RunStatus) : status.canBecome next = false := by
  cases status <;> first | rfl | cases terminal

end RunStatus

inductive ProcessOutcome
  | exited (code : Option Int) (success : Bool)
  | waitFailed (error : String)
  | timedOut (timeoutMs : Nat)

structure ChangeBaseline where
  generation : Nat
  dirty : Finset Text
  deriving DecidableEq

def RunWindow.baseline (window : RunWindow) : ChangeBaseline :=
  ⟨window.startGeneration, window.baselineDirty⟩

/-- The changed paths attributed to a terminal run.  `window` is a ghost: the window
they were computed in. -/
structure FrozenChanges where
  generation : Nat
  paths : Finset Text
  window : RunWindow
  deriving DecidableEq

structure RunChangeWindow where
  baseline : ChangeBaseline
  endedAt : Option Timestamp
  frozen : Option FrozenChanges

abbrev RunId := Text

abbrev ProcessGroup := Nat

inductive CancelRequest
  | alreadyTerminal
  | requested (group : Option ProcessGroup)

/-- A run's record, without its command and output.  `captured` and `installed` are
ghosts: the baseline taken before the run was started, and whether that call has set
it since. -/
structure RunRecord where
  runId : RunId
  sequence : Nat
  startedAt : Timestamp
  status : RunStatus
  endedAt : Option Timestamp
  exitCode : Option Int
  cancelRequested : Bool
  process : Option ProcessGroup
  notes : List String
  baseline : Option ChangeBaseline
  frozenChanges : Option FrozenChanges
  captured : Option ChangeBaseline
  installed : Bool

def cancelledNote : String := "Bash run was cancelled; partial output was retained."

namespace RunRecord

-- A run the workspace queues itself has no captured baseline.
def queued (runId : RunId) (sequence : Nat) (now : Timestamp) (captured : Option ChangeBaseline) :
    RunRecord where
  runId := runId
  sequence := sequence
  startedAt := now
  status := .queued
  endedAt := none
  exitCode := none
  cancelRequested := false
  process := none
  notes := []
  baseline := none
  frozenChanges := none
  captured := captured
  installed := false

variable (record : RunRecord) (now : Timestamp)

def addNote (note : String) : RunRecord := { record with notes := record.notes ++ [note] }

def transition (next : RunStatus) : Bool × RunRecord :=
  if record.status.canBecome next then
    let record := { record with status := next }
    (true, if next.isTerminal then { record with endedAt := some now, process := none } else record)
  else (false, record)

def finish (status : RunStatus) (exitCode : Option Int) (note : Option String) :
    Bool × RunRecord :=
  match record.transition now status with
  | (false, record) => (false, record)
  | (true, record) =>
    (true, { record with exitCode := exitCode, notes := record.notes ++ note.toList })

def finishProcess (outcome : ProcessOutcome) : Bool × RunRecord :=
  match outcome with
  | .exited code success =>
    if record.cancelRequested then record.finish now .cancelled code (some cancelledNote)
    else record.finish now (if success then .succeeded else .failed) code none
  | .waitFailed error =>
    record.finish now .failed none (some ("Bash wait failed: " ++ error))
  | .timedOut timeoutMs =>
    if record.cancelRequested then record.finish now .cancelled none (some cancelledNote)
    else record.finish now .timedOut none
      (some ("Bash run exceeded timeout of " ++ toString timeoutMs ++
        " ms; partial output was retained."))

def finishIfCancelledBeforeStart : Bool × RunRecord :=
  if record.cancelRequested then
    record.finish now .cancelled none
      (some "Bash run was cancelled before the process started.")
  else (false, record)

def startProcess (group : ProcessGroup) : Bool × RunRecord :=
  let record := { record with startedAt := now }
  let record := if record.cancelRequested then record else (record.transition now .running).2
  let record := if record.status.isTerminal then record else { record with process := some group }
  (record.cancelRequested, record)

def requestCancel : CancelRequest × RunRecord :=
  match record.transition now .cancelling with
  | (false, record) =>
    (if record.status = .cancelling then .requested record.process else .alreadyTerminal, record)
  | (true, record) => (.requested record.process, { record with cancelRequested := true })

def setBaseline (baseline : ChangeBaseline) : RunRecord :=
  { record with baseline := some baseline, installed := true }

def changeWindow (fallback : ChangeBaseline) : RunChangeWindow × RunRecord :=
  let baseline := record.baseline.getD fallback
  (⟨baseline, record.endedAt, record.frozenChanges⟩, { record with baseline := some baseline })

def freezeChanges (changes : FrozenChanges) : FrozenChanges × RunRecord :=
  let frozen := record.frozenChanges.getD changes
  (frozen, { record with frozenChanges := some frozen })

end RunRecord

inductive PollRequest
  | status
  | output
  | cancel (now : Timestamp)

inductive Execution
  | cancelledBeforeStart (now : Timestamp)
  | processStarted (now : Timestamp) (warning : Option String) (group : ProcessGroup)
  | processEnded (now : Timestamp) (warning : Option String) (outcome : ProcessOutcome)
  | failed (now : Timestamp) (message : String)
  | abandoned (now : Timestamp)

namespace RunRecord

def execute (record : RunRecord) : Execution → RunRecord
  | .cancelledBeforeStart now => (record.finishIfCancelledBeforeStart now).2
  | .processStarted now warning group =>
    ((warning.elim record record.addNote).startProcess now group).2
  | .processEnded now warning outcome =>
    ((warning.elim record record.addNote).finishProcess now outcome).2
  | .failed now message =>
    (record.finish now .failed none
      (some ("CodeWeave Bash execution failed: " ++ message))).2
  | .abandoned now =>
    (record.finish now .cancelled none
      (some "Bash run was abandoned; the process tree was terminated.")).2

def poll (record : RunRecord) : PollRequest → RunStatus × RunRecord
  | .status | .output => (record.status, record)
  | .cancel now =>
    match record.requestCancel now with
    | (.alreadyTerminal, record) => (record.status, record)
    | (.requested _, record) => (.cancelling, record)

end RunRecord

abbrev RunTable := Table RunId RunRecord

namespace RunTable

variable (runs : RunTable)

def get (run : RunId) : AppResult RunRecord :=
  match runs.lookup run with
  | some record => .ok record
  | none => .error (.withDetails .runNotFound "Bash run not found"
      (.json (json [("run_id", .string run)])))

-- The lexicographic order of end time, sequence and id.
def endedBefore (first second : Timestamp × Nat × RunId) : Bool :=
  first.1 < second.1 || (first.1 = second.1 && (first.2.1 < second.2.1 ||
    (first.2.1 = second.2.1 && decide (first.2.2 ≤ second.2.2))))

/-- A run inserted, and the oldest terminal runs beyond `retain`, which are evicted
under the next lock. -/
def insertRun (run : RunId) (record : RunRecord) (retain : Nat) : List RunId × RunTable :=
  let runs : RunTable := runs.insert run record
  if runs.entries.length ≤ retain then ([], runs)
  else
    let ended := runs.entries.filterMap fun entry =>
      entry.2.endedAt.map fun ended => (ended, entry.2.sequence, entry.1)
    (((ended.mergeSort endedBefore).take (runs.entries.length - retain)).map fun item => item.2.2,
      runs)

def evict (ended : List RunId) : RunTable := ended.foldl (fun runs run => runs.erase run) runs

end RunTable

def maxRetainedRuns : Nat := 128

end CodeWeave
