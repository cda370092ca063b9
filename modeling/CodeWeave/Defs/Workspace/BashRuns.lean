import CodeWeave.Defs.Bash.Lifecycle
import CodeWeave.Defs.Workspace.System

/-! Calls of `run` by any number of clients, step by step, with the runs' own
execution and the rest of the workspace going on between the steps. -/

namespace CodeWeave

inductive RunCall
  | entered
  | reconciled
  | captured (baseline : ChangeBaseline)
  | inserted (run : RunId) (baseline : ChangeBaseline) (ended : List RunId)
  | started (run : RunId) (baseline : ChangeBaseline)
  | returned (run : RunId) (baseline : ChangeBaseline) (status : RunStatus)
  | acted (run : RunId) (terminal isPoll : Bool)
  | settled (run : RunId) (terminal : Bool)
  | stamped (run : RunId) (terminal : Bool) (current : ChangeBaseline)
  | windowed (run : RunId) (terminal : Bool) (window : RunWindow)
  | attributed (run : RunId) (changes : FrozenChanges)

structure RunAnswer where
  run : RunId
  startGeneration : Nat
  endGeneration : Nat
  paths : Finset Text

structure BashRuns where
  world : World
  runs : RunTable
  drawn : List RunId
  sequence : Nat
  calls : Nat → Option RunCall
  answers : List RunAnswer

inductive RunEvent
  | world (action : Action)
  | enter (call : Nat)
  | reconcile (call : Nat) (io : ReconcileIo)
  | capture (call : Nat)
  | insert (call : Nat) (run : RunId) (now : Timestamp)
  | evict (call : Nat)
  | answer (call : Nat)
  | install (call : Nat)
  | poll (call : Nat) (run : RunId) (request : PollRequest)
  | settle (call : Nat) (io : ReconcileIo) (debounced : Bool)
  | stamp (call : Nat)
  | window (call : Nat)
  | attributeSince (call : Nat) (times : StatTimes)
  | freeze (call : Nat)
  | drop (call : Nat)
  | queue (run : RunId) (now : Timestamp)
  | execute (run : RunId) (execution : Execution)

def Reconciled.changeBaseline (shared : Reconciled) : ChangeBaseline :=
  ⟨shared.generation, shared.repoStatus.dirtyFiles.toFinset⟩

-- `run` reads the status back from the value it answers with.
def RunStatus.readTerminal (status : RunStatus) : Bool :=
  (RunStatus.parse status.asStr).all RunStatus.isTerminal

@[simp] theorem RunStatus.readTerminal_eq (status : RunStatus) :
    status.readTerminal = status.isTerminal := by
  rw [readTerminal, parse_asStr, Option.all_some]

namespace BashRuns

def start (world : World) : BashRuns := ⟨world, ∅, [], 0, fun _ => none, []⟩

variable (s : BashRuns)

def withState (state : ReconciledState) : BashRuns :=
  { s with world := { s.world with state := state } }

def withCall (call : Nat) (phase : Option RunCall) : BashRuns :=
  { s with calls := fun other => if other = call then phase else s.calls other }

def withRecord (run : RunId) (record : RunRecord) : BashRuns :=
  { s with runs := s.runs.insert run record }

def report (call : Nat) (answer : RunAnswer) : BashRuns :=
  { s.withCall call none with answers := s.answers ++ [answer] }

def changeBaseline : ChangeBaseline := s.world.state.shared.changeBaseline

def enterStep (call : Nat) : Option BashRuns :=
  match s.calls call with
  | none => some (s.withCall call (some .entered))
  | some _ => none

def captureStep (call : Nat) : Option BashRuns :=
  match s.calls call with
  | some .reconciled => some (s.withCall call (some (.captured s.changeBaseline)))
  | _ => none

def insertRun (run : RunId) (now : Timestamp) (captured : Option ChangeBaseline) :
    List RunId × BashRuns :=
  let (ended, runs) := s.runs.insertRun run (.queued run s.sequence now captured) maxRetainedRuns
  (ended, { s with runs := runs, drawn := run :: s.drawn, sequence := s.sequence + 1 })

def insertStep (call : Nat) (run : RunId) (now : Timestamp) : Option BashRuns :=
  match s.calls call with
  | some (.captured baseline) =>
    if run ∈ s.drawn then none
    else
      let (ended, s) := s.insertRun run now (some baseline)
      some (s.withCall call (some (.inserted run baseline ended)))
  | _ => none

def evictStep (call : Nat) : Option BashRuns :=
  match s.calls call with
  | some (.inserted run baseline ended) =>
    some ({ s with runs := s.runs.evict ended }.withCall call (some (.started run baseline)))
  | _ => none

-- A background start answers at once, and one in the foreground when the run ends or
-- its budget does. One whose execution fails ends in an error, which is a drop.
def answerStep (call : Nat) : Option BashRuns :=
  match s.calls call with
  | some (.started run baseline) =>
    match s.runs.get run with
    | .error _ => some (s.withCall call none)
    | .ok record => some (s.withCall call (some (.returned run baseline record.status)))
  | _ => none

def setChangeBaseline (run : RunId) (baseline : ChangeBaseline) : BashRuns :=
  match s.runs.get run with
  | .ok record => s.withRecord run (record.setBaseline baseline)
  | .error _ => s

def installStep (call : Nat) : Option BashRuns :=
  match s.calls call with
  | some (.returned run baseline status) =>
    some ((s.setChangeBaseline run baseline).withCall call
      (some (.acted run status.readTerminal false)))
  | _ => none

def pollStep (call : Nat) (run : RunId) (request : PollRequest) : Option BashRuns :=
  match s.calls call with
  | none =>
    match s.runs.get run with
    | .error _ => some s
    | .ok record =>
      let (status, record) := record.poll request
      some ((s.withRecord run record).withCall call (some (.acted run status.readTerminal true)))
  | some _ => none

def stampStep (call : Nat) : Option BashRuns :=
  match s.calls call with
  | some (.settled run terminal) =>
    some (s.withCall call (some (.stamped run terminal s.changeBaseline)))
  | _ => none

def windowStep (call : Nat) : Option BashRuns :=
  match s.calls call with
  | some (.stamped run terminal current) =>
    match s.runs.get run with
    | .error _ => some (s.withCall call none)
    | .ok record =>
      let (window, record) := record.changeWindow current
      let s := s.withRecord run record
      match window.frozen with
      | some frozen =>
        some (s.report call ⟨run, window.baseline.generation, frozen.generation, frozen.paths⟩)
      | none =>
        some (s.withCall call (some (.windowed run terminal
          ⟨window.baseline.generation, current.generation,
            if terminal then window.endedAt else none, window.baseline.dirty, current.dirty⟩)))
  | _ => none

def freezeStep (call : Nat) : Option BashRuns :=
  match s.calls call with
  | some (.attributed run changes) =>
    match s.runs.get run with
    | .error _ => some (s.withCall call none)
    | .ok record =>
      let (frozen, record) := record.freezeChanges changes
      some ((s.withRecord run record).report call
        ⟨run, changes.window.startGeneration, frozen.generation, frozen.paths⟩)
  | _ => none

-- A run the workspace queues itself. What it evicts goes at once.
def queueStep (run : RunId) (now : Timestamp) : Option BashRuns :=
  if run ∈ s.drawn then none
  else
    let (ended, s) := s.insertRun run now none
    some { s with runs := s.runs.evict ended }

def executeStep (run : RunId) (execution : Execution) : Option BashRuns :=
  match s.runs.get run with
  | .error _ => none
  | .ok record => some (s.withRecord run (record.execute execution))

end BashRuns

namespace Workspace

variable (ws : Workspace) (s : BashRuns)

-- A failed reconcile ends the call.
def reconcileCall (call : Nat) (io : ReconcileIo) (next : RunCall) : BashRuns :=
  match ws.reconcilePending io s.world.disk s.world.state with
  | (.error _, state) => (s.withState state).withCall call none
  | (.ok _, state) => (s.withState state).withCall call (some next)

def reconcileStep (call : Nat) (io : ReconcileIo) : Option BashRuns :=
  match s.calls call with
  | some .entered => some (ws.reconcileCall s call io .reconciled)
  | _ => none

def settleStep (call : Nat) (io : ReconcileIo) (debounced : Bool) : Option BashRuns :=
  match s.calls call with
  | some (.acted run terminal isPoll) =>
    if isPoll && !terminal && debounced then some (s.withCall call (some (.settled run terminal)))
    else some (ws.reconcileCall s call io (.settled run terminal))
  | _ => none

def attributeStep (call : Nat) (times : StatTimes) : Option BashRuns :=
  match s.calls call with
  | some (.windowed run terminal window) =>
    let paths := s.world.state.ledger.attributeSince ws s.world.disk times window
    if terminal then
      some (s.withCall call (some (.attributed run ⟨window.endGeneration, paths, window⟩)))
    else some (s.report call ⟨run, window.startGeneration, window.endGeneration, paths⟩)
  | _ => none

def advanceRuns (s : BashRuns) : RunEvent → Option BashRuns
  | .world action => some { s with world := ws.act action s.world }
  | .enter call => s.enterStep call
  | .reconcile call io => ws.reconcileStep s call io
  | .capture call => s.captureStep call
  | .insert call run now => s.insertStep call run now
  | .evict call => s.evictStep call
  | .answer call => s.answerStep call
  | .install call => s.installStep call
  | .poll call run request => s.pollStep call run request
  | .settle call io debounced => ws.settleStep s call io debounced
  | .stamp call => s.stampStep call
  | .window call => s.windowStep call
  | .attributeSince call times => ws.attributeStep s call times
  | .freeze call => s.freezeStep call
  | .drop call => some (s.withCall call none)
  | .queue run now => s.queueStep run now
  | .execute run execution => s.executeStep run execution

def RunStep (s : BashRuns) (event : RunEvent) (t : BashRuns) : Prop :=
  ws.advanceRuns s event = some t

end Workspace

end CodeWeave
