import CodeWeave.Defs.Workspace.GitActions
import CodeWeave.Lib.Locks

/-! The locks of the program, and what each function takes of them. A function that takes
none, itself or in what it calls, is left out of the bodies. -/

namespace CodeWeave

def GitAction.isMutating : GitAction → Bool
  | .stage _ | .commit _ | .restore _ => true
  | _ => false

namespace Locking

open Locks

inductive Lock
  | operationGate
  | lifecycle
  | config
  | actor
  | intelligence
  | gate
  | runPermit
  | writer
  | state
  | lastReconcile
  | paths
  | internalWrites
  | events
  | externalChanged
  | runs
  | record (runId : Text)
  | escalation (runId : Text)
  | status (language : Text)
  | stderr (language : Text)
  deriving DecidableEq

/-- The documented order, with the application's locks before it and the run permit, which an
edit waits for while its validation runs, after the gate. The leaves are of one level: none
is taken under another. -/
def Lock.level : Lock → Nat
  | .operationGate => 0
  | .lifecycle => 1
  | .config => 2
  | .actor => 3
  | .intelligence => 4
  | .gate => 5
  | .runPermit => 6
  | .writer => 7
  | .state => 8
  | _ => 9

inductive Act
  /-- The workspace and the services of one initialization are looked up. -/
  | lookup
  | install
  | view
  | publish
  | drain
  | log
  | writeFile
  | gitMutation
  | validate
  | command
  deriving DecidableEq

def Act.needs : Act → List (Lock × Mode)
  | .lookup => [(.operationGate, .shared)]
  | .install => [(.operationGate, .exclusive), (.lifecycle, .exclusive)]
  | .view => [(.state, .shared)]
  | .publish => [(.writer, .exclusive), (.state, .exclusive)]
  | .drain => [(.writer, .exclusive)]
  | .log => [(.writer, .exclusive), (.events, .exclusive)]
  | .writeFile => [(.gate, .exclusive), (.writer, .exclusive)]
  | .gitMutation | .validate => [(.gate, .exclusive)]
  | .command => [(.runPermit, .exclusive)]

abbrev Skeleton := Program Lock Act Text

def attempt : Skeleton := .either .leave .skip

def maybe (p : Skeleton) : Skeleton := .either p .skip

def inOrder : List Skeleton → Skeleton
  | [] => .skip
  | p :: ps => .seq p (inOrder ps)

def oneOf : List Skeleton → Skeleton
  | [] => .skip
  | p :: ps => .either p (oneOf ps)

def locked (lock : Lock) : Skeleton := .hold lock .exclusive .skip

namespace ReconciledState

def exclusive (p : Skeleton) : Skeleton := .hold .gate .exclusive p

def writer (p : Skeleton) : Skeleton := .hold .writer .exclusive p

/-- Also `StateWriter::read` and `StateReader::read`. -/
def read (p : Skeleton) : Skeleton := .hold .state .shared (inOrder [.act .view, p])

end ReconciledState

def StateWriter.update : Skeleton := .hold .state .exclusive (.act .publish)

open Locking.ReconciledState StateWriter

def PendingHandle.observe : Skeleton := locked .paths

namespace ChangeLedger

def pendingCount : Skeleton := locked .paths

def markPending : Skeleton := locked .paths

def clearPending : Skeleton := inOrder [.act .drain, locked .paths]

def recordInternal : Skeleton := locked .internalWrites

def forgetInternal : Skeleton := locked .internalWrites

def consumeInternal : Skeleton := locked .internalWrites

def drainPending : Skeleton :=
  .call (inOrder [attempt, .act .drain, locked .paths, .many consumeInternal])

def record : Skeleton := .hold .events .exclusive (.act .log)

def recordExternal : Skeleton := inOrder [locked .externalChanged, record]

def recordsSince : Skeleton := locked .events

def editedPathsWithin : Skeleton := locked .events

def externalPathsWithin : Skeleton := locked .externalChanged

def attributeSince : Skeleton := locked .events

end ChangeLedger

open Locking.ChangeLedger

namespace RunTable

def get : Skeleton := locked .runs

def records : Skeleton := locked .runs

def someRecord : Skeleton := .any fun runId => locked (.record runId)

def insert : Skeleton :=
  .call (inOrder [.hold .runs .exclusive attempt, .many someRecord, locked .runs])

end RunTable

open Locking.RunTable

def ProcessGroup.terminate (runId : Text) : Skeleton := locked (.escalation runId)

open Locking.ProcessGroup

def execute (runId : Text) : Skeleton :=
  .call (inOrder [locked (.record runId), attempt, attempt, locked (.record runId),
    maybe (terminate runId), .act .command, maybe (terminate runId), locked (.record runId)])

def collectOutput (runId : Text) : Skeleton := .many (locked (.record runId))

def finalizeRunError (runId : Text) : Skeleton := locked (.record runId)

def AbandonGuard.drop (runId : Text) : Skeleton := locked (.record runId)

def runTask (runId : Text) : Skeleton :=
  inOrder [.hold .runPermit .exclusive (inOrder [execute runId, maybe (finalizeRunError runId)]),
    AbandonGuard.drop runId]

namespace BashSupervisor

def runningCount : Skeleton := inOrder [records, .many someRecord]

def setChangeBaseline (runId : Text) : Skeleton := inOrder [get, maybe (locked (.record runId))]

def changeWindow (runId : Text) : Skeleton :=
  .call (inOrder [get, attempt, locked (.record runId)])

def freezeChanges (runId : Text) : Skeleton :=
  .call (inOrder [get, attempt, locked (.record runId)])

def activeRunView : Skeleton := inOrder [records, .many someRecord]

def statusWithLimit (runId : Text) : Skeleton :=
  .call (inOrder [get, attempt, .hold (.record runId) .exclusive attempt])

def status (runId : Text) : Skeleton := statusWithLimit runId

def outputStream (runId : Text) : Skeleton :=
  .call (inOrder [get, attempt, locked (.record runId)])

def readOutput (runId : Text) : Skeleton :=
  .call (inOrder [get, attempt, locked (.record runId)])

def cancel (runId : Text) : Skeleton :=
  .call (inOrder [get, attempt, .hold (.record runId) .exclusive attempt,
    maybe (terminate runId)])

/-- With the permit in hand: the task ends while the call waits for it, or the call leaves it to
run. The permit passes to the task, so that a task left to run is one that takes it next. -/
def startPrepared (runId : Text) : Skeleton :=
  .call (.either
    (inOrder [.hold .runPermit .exclusive (inOrder [insert, execute runId,
      maybe (finalizeRunError runId)]), AbandonGuard.drop runId, attempt, status runId])
    (inOrder [.hold .runPermit .exclusive insert, status runId]))

def start (runId : Text) : Skeleton :=
  .call (inOrder [attempt, .either (inOrder [activeRunView, .leave]) (startPrepared runId)])

def queue (runId : Text) : Skeleton :=
  .call (inOrder [attempt, insert, status runId])

end BashSupervisor

open Locking.BashSupervisor

namespace Workspace

def refreshRepoStatus : Skeleton := update

def reconcileWith : Skeleton :=
  .call (inOrder [drainPending, attempt, update, attempt, maybe recordExternal])

def reconcilePending : Skeleton := .call (inOrder [attempt, writer reconcileWith])

def reconcilePendingAsync : Skeleton :=
  .call (inOrder [attempt, reconcilePending, attempt, locked .lastReconcile])

def reconcileAfterPoll : Skeleton :=
  .call (inOrder [attempt, maybe (inOrder [locked .lastReconcile, attempt]), reconcilePendingAsync])

def compensate : Skeleton :=
  .call (inOrder [attempt, .many recordInternal, .many (.act .writeFile),
    maybe (inOrder [update, maybe markPending])])

def failedAfterApply : Skeleton := compensate

def commitPlan : Skeleton :=
  .call (inOrder [read .skip,
    .many (inOrder [recordInternal, .act .writeFile,
      maybe (inOrder [forgetInternal, compensate, .leave])]),
    update, maybe (inOrder [failedAfterApply, .leave]), record])

def prepareEdit : Skeleton :=
  .call (writer (inOrder [reconcileWith, attempt, read .skip, attempt, read attempt, attempt,
    commitPlan]))

def spawnPendingValidation : Skeleton := .any queue

def runEditValidation : Skeleton :=
  .call (.many (inOrder [.act .validate, .either
    (inOrder [spawnPendingValidation, .leave])
    (inOrder [.any start, maybe (inOrder [maybe spawnPendingValidation, .leave])])]))

/-- The permit is given up after the preview, or after the validation. -/
def codeEdit : Skeleton :=
  .call (inOrder [attempt, exclusive (inOrder [prepareEdit, attempt, runEditValidation]),
    reconcilePendingAsync, attempt, read .skip])

def rescan : Skeleton := .call (writer (inOrder [clearPending, attempt, update]))

def gitDiff : Skeleton :=
  .call (inOrder [attempt, read .skip, attempt, maybe (read .skip), attempt])

def gitMutation (action : GitAction) : Skeleton :=
  match action with
  | .stage _ | .commit _ =>
    .call (inOrder [attempt, .act .gitMutation, attempt, writer refreshRepoStatus])
  | .restore _ => .call (inOrder [attempt, .act .gitMutation, attempt, rescan])
  | _ => .skip

def gitArm (action : GitAction) : Skeleton :=
  match action with
  | .diff _ => inOrder [gitDiff, .leave]
  | .status | .preflight =>
    inOrder [writer (inOrder [refreshRepoStatus, attempt, read .skip]), .leave]
  | .log _ | .show _ | .blame _ | .push _ => attempt
  | .stage _ | .commit _ | .restore _ => inOrder [attempt, gitMutation action, attempt]

def gitBlocking (action : GitAction) : Skeleton :=
  .call (inOrder [reconcilePending, attempt, gitArm action, read .skip])

def git (action : GitAction) : Skeleton :=
  if action.isMutating then exclusive (gitBlocking action) else gitBlocking action

def changeBaseline : Skeleton := read .skip

def attributeRunChanges (runId : Text) : Skeleton :=
  .call (inOrder [changeBaseline, changeWindow runId, attempt, attempt, attributeSince, attempt,
    attempt, freezeChanges runId])

def run : Skeleton :=
  .any fun runId => .call (inOrder [maybe (inOrder [reconcilePendingAsync, attempt]),
    oneOf [inOrder [changeBaseline, start runId, attempt, maybe (setChangeBaseline runId)],
      inOrder [status runId, attempt], inOrder [BashSupervisor.outputStream runId, attempt],
      inOrder [cancel runId, attempt]],
    .either reconcileAfterPoll reconcilePendingAsync, attempt,
    maybe (inOrder [attributeRunChanges runId, attempt])])

def indexFileCount : Skeleton := read .skip

def lastReconcileElapsedMs : Skeleton := locked .lastReconcile

def snapshotId : Skeleton := .call (inOrder [reconcilePending, attempt, read .skip])

def diagnostics : Skeleton := inOrder [pendingCount, read runningCount]

def summary : Skeleton :=
  .call (inOrder [reconcilePending, attempt,
    read (inOrder [editedPathsWithin, externalPathsWithin])])

def refresh : Skeleton := .call (inOrder [.either rescan reconcilePending, attempt, summary])

def changes : Skeleton := .call (inOrder [reconcilePending, attempt, recordsSince, read .skip])

def searchIndex : Skeleton := read .skip

def fetchSymbol : Skeleton := .call (read attempt)

def fetchMetadata : Skeleton := .call (read attempt)

def fetchIndexedPath : Skeleton := .call (read attempt)

def readTarget : Skeleton :=
  .call (inOrder [attempt, oneOf [fetchIndexedPath, fetchSymbol, fetchMetadata,
    .any statusWithLimit, .any readOutput]])

def codeRetrieve : Skeleton :=
  .call (inOrder [attempt, read .skip, attempt, .many (oneOf [searchIndex, readTarget])])

end Workspace

namespace LspWorker

def status : Skeleton := .any fun language => .hold (.status language) .shared .skip

def statusWrite (language : Text) : Skeleton := locked (.status language)

def executeOnce (language : Text) : Skeleton :=
  .call (inOrder [maybe (inOrder [statusWrite language, attempt, maybe (locked (.stderr language)),
    attempt, statusWrite language]), maybe (locked (.stderr language))])

def executeWithRestart (language : Text) : Skeleton :=
  inOrder [executeOnce language, maybe (inOrder [statusWrite language, executeOnce language]),
    statusWrite language]

/-- `WorkerRuntime::run`. -/
def run (language : Text) : Skeleton :=
  .many (maybe (inOrder [executeWithRestart language, statusWrite language]))

def retainTail (language : Text) : Skeleton := .many (locked (.stderr language))

end LspWorker

namespace IntelligenceService

def live : Skeleton := read .skip

def readCurrent : Skeleton := .call (inOrder [attempt, live, attempt])

def semantic (interpret : Skeleton) : Skeleton :=
  .call (inOrder [attempt, attempt, live, attempt, interpret, attempt])

def sessionAttempt (interpret : Skeleton) : Skeleton :=
  .call (inOrder [attempt, semantic interpret, maybe LspWorker.status])

def normalizeLocations : Skeleton := .call (.many (inOrder [readCurrent, attempt]))

def execute : Skeleton :=
  .call (inOrder [live, attempt, oneOf
    [sessionAttempt normalizeLocations,
      sessionAttempt .skip,
      inOrder [sessionAttempt (inOrder [normalizeLocations, attempt, live, attempt]), live, live,
        attempt]]])

end IntelligenceService

namespace Application

open Locking.Workspace

def initializeBlocking : Skeleton :=
  .call (inOrder [attempt, .hold .lifecycle .exclusive (inOrder
    [.hold .config .exclusive (.act .install), .hold .actor .exclusive (.act .install),
      .hold .intelligence .exclusive (.act .install), indexFileCount])])

def initializeAsync : Skeleton := .hold .operationGate .exclusive initializeBlocking

def health : Skeleton :=
  .hold .config .shared (inOrder [.hold .actor .shared .skip, maybe indexFileCount,
    maybe lastReconcileElapsedMs])

def operation (work : Skeleton) : Skeleton := .hold .operationGate .shared (.call work)

def actor : Skeleton := .hold .actor .shared (.act .lookup)

def workspaceAction : Skeleton := oneOf [summary, refresh, changes, diagnostics]

def workspace : Skeleton := operation (inOrder [actor, attempt, workspaceAction])

def codeRetrieve : Skeleton := operation (inOrder [actor, attempt, Workspace.codeRetrieve])

def codeIntelligence : Skeleton :=
  operation (inOrder [actor, attempt, snapshotId, attempt,
    .hold .intelligence .shared (.act .lookup), attempt, IntelligenceService.execute, attempt,
    maybe (inOrder [snapshotId, attempt, Workspace.codeEdit, attempt])])

def codeEdit : Skeleton :=
  operation (inOrder [actor, attempt, maybe (inOrder [snapshotId, attempt]), Workspace.codeEdit])

def git (action : GitAction) : Skeleton :=
  operation (inOrder [actor, attempt, Workspace.git action])

def bash : Skeleton := operation (inOrder [actor, attempt, Workspace.run])

end Application

/-- Everything that runs on its own: the requests, the tasks and the threads. -/
inductive Call
  | initializeAsync
  | health
  | workspace
  | codeRetrieve
  | codeIntelligence
  | codeEdit
  | git (action : GitAction)
  | bash
  | observe
  | task (runId : Text)
  | collect (runId : Text)
  | worker (language : Text)
  | retainTail (language : Text)
  /-- Work that a request has started and does not wait for any more, once it is dropped. -/
  | abandonedEdit
  | abandonedGit (action : GitAction)
  | abandonedRead

def Call.skeleton : Call → Skeleton
  | .initializeAsync => Application.initializeAsync
  | .health => Application.health
  | .workspace => Application.workspace
  | .codeRetrieve => Application.codeRetrieve
  | .codeIntelligence => Application.codeIntelligence
  | .codeEdit => Application.codeEdit
  | .git action => Application.git action
  | .bash => Application.bash
  | .observe => PendingHandle.observe
  | .task runId => runTask runId
  | .collect runId => collectOutput runId
  | .worker language => LspWorker.run language
  | .retainTail language => LspWorker.retainTail language
  | .abandonedEdit => exclusive Workspace.prepareEdit
  | .abandonedGit action => Workspace.git action
  | .abandonedRead => oneOf [Application.workspaceAction, Workspace.codeRetrieve,
      Workspace.reconcilePending, attributeSince, IntelligenceService.execute]

end Locking

end CodeWeave
