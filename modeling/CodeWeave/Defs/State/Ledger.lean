import CodeWeave.Defs.Workspace.Config

namespace CodeWeave

inductive MutationSource
  | mcpEdit
  | external
  deriving DecidableEq

def MutationSource.asStr : MutationSource → Text
  | .mcpEdit => "mcp_edit".toList
  | .external => "external".toList

structure MutationRecord where
  mutationId : Text
  path : Text
  beforeHash : Option ContentHash
  afterHash : Option ContentHash
  source : MutationSource
  requestId : Text
  timestamp : Timestamp
  generation : Nat
  deriving DecidableEq

def internalWriteTtl : Nat := 30000

def maxMutationEvents : Nat := 2000

abbrev Markers := PathKey → Option Instant

structure PendingDrain where
  gitEvent : Bool
  paths : List PathBuf
  external : List Text
  deriving DecidableEq

/-- What changed on disk since the last reconcile, which of it CodeWeave wrote
itself, and the bounded log of mutation records.  The lists are sets except for
the log; no two pending paths compare equal. -/
structure ChangeLedger where
  pending : List PathBuf
  needsReconcile : Bool
  internalWrites : Markers
  events : List MutationRecord
  externalChanged : List Text

def gitName : Text := ".git".toList

def isGitPath (relative : Text) : Prop := relative = gitName ∨ gitName ++ ['/'] <+: relative

instance (relative : Text) : Decidable (isGitPath relative) :=
  inferInstanceAs (Decidable (_ ∨ _))

def insertPath (path : PathBuf) (paths : List PathBuf) : List PathBuf :=
  if paths.any (fun other => other.key = path.key) then paths else paths ++ [path]

def isLive (written now : Instant) : Bool := now - written < internalWriteTtl

def consumeInternal (markers : Markers) (path : PathBuf) (now : Instant) : Bool × Markers :=
  ((markers path.key).any fun written => isLive written now,
    fun key => if key = path.key then none else markers key)

namespace Workspace

variable (ws : Workspace)

-- A drained path is neither excluded, nor a temporary file, nor a directory now.
def drains (disk : Disk) (path : PathBuf) : Bool :=
  !(path.relative = [] || path.relative = ['.'] || ws.isIgnored path (disk.isDir path) ||
    ws.isTempFile path || disk.isDir path)

def drainPath (disk : Disk) (now : Instant) (state : PendingDrain × Markers) (path : PathBuf) :
    PendingDrain × Markers :=
  if isGitPath path.relative then ({ state.1 with gitEvent := true }, state.2)
  else if ws.drains disk path then
    let (internal, markers) := consumeInternal state.2 path now
    let external := if internal then state.1.external else state.1.external.insert path.relative
    (⟨state.1.gitEvent, state.1.paths ++ [path], external⟩, markers)
  else state

end Workspace

namespace ChangeLedger

def new : ChangeLedger := ⟨[], false, fun _ => none, [], []⟩

def observeOne (ws : Workspace) (disk : Disk) (ledger : ChangeLedger) (path : PathBuf) :
    ChangeLedger :=
  match path with
  | .outside _ => ledger
  | .below text =>
    let path := PathBuf.below text
    if path.relative = [] || ws.isIgnored path (disk.isDir path) || ws.isTempFile path then ledger
    else { ledger with pending := insertPath path ledger.pending, needsReconcile := true }

def observe (ws : Workspace) (disk : Disk) (ledger : ChangeLedger) (paths : List PathBuf) :
    ChangeLedger :=
  paths.foldl (observeOne ws disk) ledger

def markPending (ledger : ChangeLedger) (paths : List PathBuf) : ChangeLedger :=
  { ledger with
    pending := paths.foldl (fun pending path => insertPath path pending) ledger.pending
    needsReconcile := true }

def clearPending (ledger : ChangeLedger) : ChangeLedger :=
  { ledger with pending := [], needsReconcile := false }

def drainPending (ws : Workspace) (disk : Disk) (ledger : ChangeLedger) (now : Instant) :
    Option PendingDrain × ChangeLedger :=
  if ledger.needsReconcile then
    let (drain, markers) := ledger.pending.foldl (ws.drainPath disk now)
      (⟨false, [], []⟩, ledger.internalWrites)
    (some drain, { ledger with pending := [], needsReconcile := false, internalWrites := markers })
  else (none, ledger)

def recordInternal (ledger : ChangeLedger) (path : PathBuf) (now : Instant) : ChangeLedger :=
  { ledger with internalWrites := fun key =>
      if key = path.key then some now
      else (ledger.internalWrites key).filter fun written => isLive written now }

def forgetInternal (ledger : ChangeLedger) (path : PathBuf) : ChangeLedger :=
  { ledger with internalWrites := fun key =>
      if key = path.key then none else ledger.internalWrites key }

def bounded (events : List MutationRecord) : List MutationRecord :=
  events.drop (events.length - maxMutationEvents)

def record (ledger : ChangeLedger) (records : List MutationRecord) : ChangeLedger :=
  { ledger with events := bounded (ledger.events ++ records) }

def recordExternal (ledger : ChangeLedger) (records : List MutationRecord) : ChangeLedger :=
  { ledger with
    externalChanged := (records.map MutationRecord.path).foldl
      (fun paths path => paths.insert path) ledger.externalChanged }.record records

def recordsSince (ledger : ChangeLedger) (since : Nat) (source : Option Text) (limit : Nat) :
    List MutationRecord :=
  ((ledger.events.reverse.filter fun item => item.generation > since).filter
    fun item => source.all fun value => item.source.asStr = value).take limit

end ChangeLedger

end CodeWeave
