import CodeWeave.Defs.Workspace.CommitLaws
import CodeWeave.Defs.Workspace.Compensation
import CodeWeave.Defs.Workspace.System
import CodeWeave.Lib.Feed

/-! One client that polls `changes` while writers commit and reconcile, step by step:
the writer holds the writer lock between its steps, and the client takes the ledger
and the reconciled state under their own locks. -/

namespace CodeWeave

open Runs

inductive Writer
  | idle
  | written (io : CommitIo) (plan : List PlannedFile) (progress : CommitProgress)
      (records : List MutationRecord)
  | drained (io : ReconcileIo) (drain : PendingDrain)
  | committed (records : List MutationRecord)
  | reconciled (external : List MutationRecord)

def Writer.isIdle : Writer → Bool
  | .idle => true
  | _ => false

theorem Writer.isIdle_iff {writer : Writer} : writer.isIdle = true ↔ writer = .idle := by
  cases writer <;> simp [isIdle]

def Writer.isWritten : Writer → Bool
  | .written .. => true
  | _ => false

/-- The records of a published generation that are not in the log yet. -/
def Writer.unappended : Writer → List MutationRecord
  | .committed records | .reconciled records => records
  | _ => []

inductive Client
  | idle
  | reading (limit : Nat)
  | stamping (limit : Nat) (records : List MutationRecord)

structure Polling where
  world : World
  writer : Writer
  client : Client
  since : Nat
  responses : List ChangesResponse

namespace Polling

def start (world : World) (first : Nat) : Polling := ⟨world, .idle, .idle, first, []⟩

def withState (s : Polling) (state : ReconciledState) : Polling :=
  { s with world := { s.world with state := state } }

def ledger (s : Polling) : ChangeLedger := s.world.state.ledger

end Polling

inductive PollAction
  | disk (disk : Disk)
  | observe (paths : List PathBuf)
  | write (io : CommitIo) (plan : List PlannedFile) (requestId : Text)
  | drain (io : ReconcileIo)
  | publish
  | append
  | poll (io : ReconcileIo) (limit : Nat)
  | read
  | stamp

namespace Workspace

variable (ws : Workspace)

def writeStep (io : CommitIo) (plan : List PlannedFile) (requestId : Text) (s : Polling) :
    Option Polling :=
  match s.writer with
  | .idle =>
    let records := plan.map (ws.commitRecord io requestId (s.world.state.shared.generation + 1))
    match writePlan io plan (.new plan) s.world with
    | (some _, progress, world) =>
      some { s with world := (ws.compensate io progress.completed false world).2 }
    | (none, progress, world) =>
      some { s with world := world, writer := .written io plan progress records }
  | _ => none

def drainStep (io : ReconcileIo) (s : Polling) : Option Polling :=
  match s.writer with
  | .idle =>
    match s.ledger.drainPending ws s.world.disk io.now with
    | (none, ledger) => some (s.withState (s.world.state.withLedger ledger))
    | (some drain, ledger) =>
      some { s.withState (s.world.state.withLedger ledger) with writer := .drained io drain }
  | _ => none

def publishStep (s : Polling) : Option Polling :=
  match s.writer with
  | .written io plan progress records =>
    match s.world.state.update (ws.publishCommit io s.world.disk (planPaths plan)) with
    | (.error error, state) =>
      some { s with
        world := (ws.failedAfterApply io progress .indexRefreshFailed error.display
          { s.world with state := state }).2
        writer := .idle }
    | (.ok (), state) => some { s.withState state with writer := .committed records }
  | .drained io drain =>
    match s.world.state.update (ws.publishReconcile io s.world.disk drain) with
    | (.error _, state) => some { s.withState state with writer := .idle }
    | (.ok (_, external), state) => some { s.withState state with writer := .reconciled external }
  | _ => none

def appendStep (s : Polling) : Option Polling :=
  match s.writer with
  | .committed records =>
    some { s.withState (s.world.state.withLedger (s.ledger.record records)) with writer := .idle }
  | .reconciled external =>
    if external = [] then some { s with writer := .idle }
    else some { s.withState (s.world.state.withLedger (s.ledger.recordExternal external)) with
      writer := .idle }
  | _ => none

-- A call of `changes` first reconciles, which waits for the writer lock where
-- something is pending.  The client holds the lock throughout, so that is one step.
def pollStep (io : ReconcileIo) (limit : Nat) (s : Polling) : Option Polling :=
  match s.client with
  | .idle =>
    if s.ledger.needsReconcile && !s.writer.isIdle then none
    else
      match ws.reconcilePending io s.world.disk s.world.state with
      | (.error _, state) => some (s.withState state)
      | (.ok _, state) => some { s.withState state with client := .reading limit }
  | _ => none

def readStep (s : Polling) : Option Polling :=
  match s.client with
  | .reading limit =>
    some { s with client := .stamping limit (s.ledger.recordsSince s.since none limit) }
  | _ => none

def stampStep (s : Polling) : Option Polling :=
  match s.client with
  | .stamping _ records =>
    let response := ws.changesResponse records s.world.state
    some { s with
      client := .idle
      since := response.generation
      responses := s.responses ++ [response] }
  | _ => none

def advance (s : Polling) : PollAction → Option Polling
  | .disk disk => some { s with world := ws.act (.disk disk) s.world }
  | .observe paths => some { s with world := ws.act (.observe paths) s.world }
  | .write io plan requestId => ws.writeStep io plan requestId s
  | .drain io => ws.drainStep io s
  | .publish => ws.publishStep s
  | .append => appendStep s
  | .poll io limit => ws.pollStep io limit s
  | .read => readStep s
  | .stamp => ws.stampStep s

def PollStep (s : Polling) (action : PollAction) (t : Polling) : Prop :=
  ws.advance s action = some t

def advanceAll (actions : List PollAction) (s : Polling) : Option Polling :=
  actions.foldlM ws.advance s

/-- What is left of the writer's steps, with nothing in between. -/
def finishWriter (s : Polling) : Option Polling :=
  match s.writer with
  | .idle => some s
  | .written .. | .drained .. =>
    (ws.publishStep s).bind fun s => if s.writer.isIdle then some s else appendStep s
  | .committed _ | .reconciled _ => appendStep s

/-- A commit whose steps nothing comes between is `commit_plan`. -/
theorem finishWriter_writeStep (io : CommitIo) (plan : List PlannedFile) (requestId : Text)
    (s : Polling) (idle : s.writer = .idle) :
    (ws.writeStep io plan requestId s).bind ws.finishWriter =
      some { s with world := (ws.commitPlan io plan requestId s.world).2 } := by
  obtain ⟨world, writer, client, since, responses⟩ := s
  subst idle
  simp only [writeStep, commitPlan]
  rcases writePlan io plan (.new plan) world with ⟨stop, progress, world⟩
  cases stop with
  | some stop => rfl
  | none =>
    simp only [Option.bind_some, finishWriter, publishStep]
    rcases world.state.update (ws.publishCommit io world.disk (planPaths plan)) with ⟨result, state⟩
    cases result <;> rfl

/-- A reconcile whose steps nothing comes between is `reconcile_with`. -/
theorem finishWriter_drainStep (io : ReconcileIo) (s : Polling) (idle : s.writer = .idle) :
    (ws.drainStep io s).bind ws.finishWriter =
      some (s.withState (ws.reconcileWith io s.world.disk s.world.state).2) := by
  obtain ⟨world, writer, client, since, responses⟩ := s
  subst idle
  simp only [drainStep, reconcileWith, Polling.ledger]
  rcases world.state.ledger.drainPending ws world.disk io.now with ⟨drain, ledger⟩
  cases drain with
  | none => rfl
  | some drain =>
    simp only [Option.bind_some, finishWriter, publishStep, Polling.withState]
    rcases (world.state.withLedger ledger).update (ws.publishReconcile io world.disk drain) with
      ⟨result, state⟩
    cases result with
    | error error => rfl
    | ok published =>
      simp only [Option.bind_some, Writer.isIdle, Bool.false_eq_true, if_false, appendStep]
      split <;> rfl

end Workspace

end CodeWeave
