import CodeWeave.Defs.Workspace.Commit
import CodeWeave.Defs.Workspace.TextEdit
import Mathlib.Data.List.Sort

namespace CodeWeave

inductive InsertPosition
  | before
  | after
  | insideStart
  | insideEnd
  deriving DecidableEq

inductive Change
  | create (path content : Text) (overwrite : Bool) (expectedHash : Option ContentHash)
  | replace (path oldText newText : Text) (expectedReplacements : Nat)
      (expectedHash : Option ContentHash) (handle : Option Text)
  | replaceRange (path handle newText : Text)
  | insert (path content anchorSymbol : Text) (position : InsertPosition)
      (expectedHash : Option ContentHash)
  | delete (path : Text) (expectedHash : Option ContentHash)
  | rename (path target : Text) (expectedHash : Option ContentHash)
  deriving DecidableEq

namespace Change

def path : Change → Text
  | .create path _ _ _ => path
  | .replace path _ _ _ _ _ => path
  | .replaceRange path _ _ => path
  | .insert path _ _ _ _ => path
  | .delete path _ => path
  | .rename path _ _ => path

def expectedHash : Change → Option ContentHash
  | .create _ _ _ expectedHash => expectedHash
  | .replace _ _ _ _ expectedHash _ => expectedHash
  | .replaceRange _ _ _ => none
  | .insert _ _ _ _ expectedHash => expectedHash
  | .delete _ expectedHash => expectedHash
  | .rename _ _ expectedHash => expectedHash

def handle : Change → Option Text
  | .replace _ _ _ _ _ handle => handle
  | .replaceRange _ handle _ => some handle
  | _ => none

def named : Change → List Text
  | .rename path target _ => [path, target]
  | change => [change.path]

def isCreate : Change → Bool
  | .create _ _ _ _ => true
  | _ => false

end Change

structure EditRequest where
  changes : List Change
  snapshotId : Option SnapshotId
  preview : Bool

abbrev EditPlan := Table RelPath PlannedFile

inductive PlannedEdit
  | preview (planned : List PlannedFile)
  | commit (planned : List PlannedFile)

def PlannedEdit.planned : PlannedEdit → List PlannedFile
  | .preview planned => planned
  | .commit planned => planned

/-- Paths whose change relies only on the snapshot precondition: everything
except a new-file create and changes carrying a hash or handle. -/
def changesWithoutIndependentPreconditions (changes : List Change) : List Text :=
  changes.filterMap fun change =>
    let newCreate := match change with
      | .create _ _ overwrite _ => !overwrite
      | _ => false
    let hasPrecondition := change.expectedHash.isSome || change.handle.isSome
    if !newCreate && !hasPrecondition then some change.path else none

def staleSnapshotForPaths (expected actual : SnapshotId) (paths : List Text) : AppError :=
  .withDetails .staleSnapshot "Workspace changed after the requested snapshot"
    (.staleSnapshot expected actual paths true
      "Fetch only the affected handles/files again; edits with current expected_hash or handle preconditions can be retried without reopening the workspace.")

def overlaps (range other : Nat × Nat) : Bool := range.1 < other.2 && other.1 < range.2

def addRanges (path : Text) : List (Nat × Nat) → List (Nat × Nat) → AppResult (List (Nat × Nat))
  | [], existing => .ok existing
  | range :: found, existing =>
    if existing.any (overlaps range) then
      .error (.withDetails .overlappingEdits "Two exact edits overlap" (.path path))
    else addRanges path found (existing ++ [range])

namespace Workspace

variable (ws : Workspace)

def decodeHandle (input : Text) : AppResult RangeHandleWire :=
  let marker := "range:".toList
  if marker.isPrefixOf input then do
    let wire ← ws.decodeWire (input.drop marker.length)
    require (wire.startLine ≤ wire.endLine) (.new .invalidHandle
      ("range handle start line " ++ toString wire.startLine ++ " is after end line " ++
        toString wire.endLine))
    require (wire.path ≠ [] && (RelPath.new wire.path).isOk) (.new .invalidHandle
      "range handle path must be a workspace-relative path")
    .ok wire
  else .error (.new .invalidHandle "Unsupported range handle")

def editHandle (change : Change) (path : Text) : AppResult (Option RangeHandleWire) :=
  match change.handle with
  | none => .ok none
  | some input => do
    let handle ← ws.decodeHandle input
    require (handle.workspaceId = ws.id && handle.path = path)
      (.new .invalidHandle "Edit handle does not match workspace/path")
    .ok (some handle)

-- The code names an arbitrary one of the paths with an ambiguous handle, this
-- the first.
def ambiguousHandlePath (changes : List Change) : Option Text :=
  let paths := changes.map fun change => normalizePathText change.path
  (changes.find? fun change =>
    change.handle.isSome && paths.count (normalizePathText change.path) > 1).map
      fun change => normalizePathText change.path

def preflightRanges (index : CodeIndex) (change : Change) (path : Text) :
    AppResult (List (Nat × Nat)) := do
  let file ← okOr (index.get path)
    (.withDetails .pathNotIndexed "Replace path is not indexed" (.path path))
  let handle ← ws.editHandle change path
  let (baseOffset, selected) ← match handle with
    | none => .ok (0, file.content)
    | some handle => do
      let (start, stop) ← lineRange file.content handle.startLine handle.endLine
      .ok (start, slice file.content start stop)
  match change with
  | .replace _ oldText _ expected _ _ => do
    let (old, actual) := matchingOldText file.content selected oldText expected
    require (actual = expected) (.withDetails .exactMatchCount
      "Exact replacement count did not match" (.matchCount path expected actual))
    .ok ((matchIndices selected old).map fun start =>
      (baseOffset + start, baseOffset + start + old.length))
  | _ => .ok [(baseOffset, baseOffset + selected.length)]

def preflightEach (index : CodeIndex) :
    List Change → (Text → List (Nat × Nat)) → AppResult Unit
  | [], _ => .ok ()
  | change :: rest, ranges =>
    match change with
    | .replace .. | .replaceRange .. => do
      let path := normalizePathText change.path
      let found ← ws.preflightRanges index change path
      let existing ← addRanges path found (ranges path)
      preflightEach index rest fun other => if other = path then existing else ranges other
    | _ => preflightEach index rest ranges

def preflightOverlaps (changes : List Change) (index : CodeIndex) : AppResult Unit :=
  match ambiguousHandlePath changes with
  | some path =>
    .error (.withDetails .ambiguousHandleEditOrder
      "A handle-based edit must be the only change for its file in one transaction"
      (.pathWithGuidance path
        "Use one replace_range for the complete fetched range, or use exact replacements without handles."))
  | none => ws.preflightEach index changes fun _ => []

end Workspace

def PlannedFile.new (ws : Workspace) (path : RelPath) (before after : Option Text) : PlannedFile :=
  ⟨path, before, before.map ws.contentHash, after⟩

def putPlan (ws : Workspace) (plan : EditPlan) (path : RelPath) (before after : Option Text) :
    EditPlan :=
  match plan.lookup path with
  | some existing => plan.insert path { existing with after := after }
  | none => plan.insert path (.new ws path before after)

def plannedContent (plan : EditPlan) (index : CodeIndex) (path : RelPath) : Option Text :=
  match plan.lookup path with
  | some item => item.after
  | none => (index.get path.text).map FileEntry.content

def sortPlan (plan : EditPlan) : List PlannedFile :=
  (plan.entries.map Sigma.snd).insertionSort fun first second => first.path.text ≤ second.path.text

def replacedText (current oldText newText : Text) (expected : Nat) (path : RelPath)
    (handle : Option RangeHandleWire) : AppResult Text := do
  let new := normalizeLineEndingsForContent current newText
  match handle with
  | some handle => do
    let (start, stop) ← lineRange current handle.startLine handle.endLine
    let selected := slice current start stop
    let (old, count) := matchingOldText current selected oldText expected
    require (count = expected) (.withDetails .exactMatchCount
      "Exact replacement count did not match the provenance range"
      (.rangeMatchCount path.text expected count handle.startLine handle.endLine))
    let replacement := preserveTerminalLineEnding old new
    .ok (replaceRange current start stop (replacen selected old replacement expected))
  | none => do
    let (old, count) := matchingOldText current current oldText expected
    require (count = expected) (.withDetails .exactMatchCount
      "Exact replacement count did not match current planned content"
      (.matchCount path.text expected count))
    let replacement := preserveTerminalLineEnding old new
    .ok (replacen current old replacement expected)

def insertLine (position : InsertPosition) (symbol : Symbol) : Nat :=
  match position with
  | .before => symbol.startLine
  | .after => symbol.endLine + 1
  | .insideStart => symbol.startLine + 1
  | .insideEnd => symbol.endLine

namespace Workspace

variable (ws : Workspace)

-- The match over the kinds of change at the end of `plan_change`.
def applyChange (change : Change) (path : RelPath) (handle : Option RangeHandleWire)
    (before : Option Text) (plan : EditPlan) (index : CodeIndex) : AppResult EditPlan :=
  match change with
  | .replace _ oldText newText expected _ _ => do
    let current ← okOr before
      (.withDetails .pathNotFound "Replace path does not exist" (.path path.text))
    let after ← replacedText current oldText newText expected path handle
    .ok (putPlan ws plan path (some current) (some after))
  | .replaceRange _ _ newText => do
    let handle ← okOr handle
      (.new .missingHandle "replace_range requires a fresh code_retrieve range handle")
    let current ← okOr before
      (.withDetails .pathNotFound "Replace path does not exist" (.path path.text))
    let new := normalizeLineEndingsForContent current newText
    let (start, stop) ← lineRange current handle.startLine handle.endLine
    let replacement := preserveTerminalLineEnding (slice current start stop) new
    .ok (putPlan ws plan path (some current) (some (replaceRange current start stop replacement)))
  | .insert _ content anchorSymbol position _ => do
    let current ← okOr before (.new .pathNotFound "Insert path does not exist")
    let insert := normalizeLineEndingsForContent current content
    let symbol ← okOr
      ((ws.extractSymbols path.text current).find? fun item => item.name = anchorSymbol)
      (.withDetails .symbolNotFound "Anchor symbol not found in current planned content"
        (.symbol path.text anchorSymbol))
    let offset := lineOffset current (insertLine position symbol)
    .ok (putPlan ws plan path (some current) (some (replaceRange current offset offset insert)))
  | .create _ content overwrite _ => do
    require (!(before.isSome && !overwrite))
      (.withDetails .pathExists "Create target already exists" (.path path.text))
    let content := match before with
      | some current => normalizeLineEndingsForContent current content
      | none => content
    .ok (putPlan ws plan path before (some content))
  | .delete _ _ => do
    let current ← okOr before (.new .pathNotFound "Delete target does not exist")
    .ok (putPlan ws plan path (some current) none)
  | .rename _ target _ => do
    let target ← RelPath.new target
    let current ← okOr before (.new .pathNotFound "Rename source does not exist")
    require (!(((plan.lookup target).bind PlannedFile.after).isSome || (index.get target.text).isSome))
      (.withDetails .pathExists "Rename target already exists" (.path target.text))
    .ok (putPlan ws (putPlan ws plan path (some current) none) target none
      (some current))

def planChange (change : Change) (hasSnapshot : Bool) (plan : EditPlan) (index : CodeIndex) :
    AppResult EditPlan := do
  let path ← RelPath.new change.path
  let handle ← ws.editHandle change path.text
  let handleHash := handle.map RangeHandleWire.contentHash
  let before := plannedContent plan index path
  let originalHash := ((plan.lookup path).bind PlannedFile.beforeHash).or
    (before.map ws.contentHash)
  let editsExistingFile := !change.isCreate || before.isSome
  require (!(editsExistingFile && !hasSnapshot && change.expectedHash.isNone && handleHash.isNone))
    (.withDetails .missingPrecondition
      "Existing-file edits require snapshot_id, expected_hash, or handle" (.path path.text))
  let expected := change.expectedHash.or handleHash
  require (expected.all fun hash => originalHash = some hash)
    (.withDetails .staleFile "File hash precondition failed"
      (.hashes path.text expected originalHash))
  ws.applyChange change path handle before plan index

def planChanges (hasSnapshot : Bool) (index : CodeIndex) :
    List Change → EditPlan → AppResult EditPlan
  | [], plan => .ok plan
  | change :: rest, plan => do
    let plan ← ws.planChange change hasSnapshot plan index
    planChanges hasSnapshot index rest plan

def recheckPreconditions (disk : Disk) : List PlannedFile → AppResult Unit
  | [] => .ok ()
  | item :: rest =>
    match disk.readToString item.path with
    | .error error => .error (.withDetails .readFailed error.message (.path item.path.text))
    | .ok actual => do
      let actualHash := actual.map ws.contentHash
      require (actualHash = item.beforeHash) (.withDetails .staleFile
        "File changed after planning and before commit"
        (.hashes item.path.text item.beforeHash actualHash))
      recheckPreconditions disk rest

def syntaxPreflight : List PlannedFile → AppResult Unit
  | [] => .ok ()
  | item :: rest => do
    require (item.after.all fun after => ws.parseHasError item.path.text after ≠ some true)
      (.withDetails .syntaxError "Tree-sitter found syntax errors in planned content"
        (.path item.path.text))
    syntaxPreflight rest

-- `prepare_edit` after its reconcile, up to the commit.
def planEdit (request : EditRequest) (disk : Disk) (shared : Reconciled) :
    AppResult PlannedEdit := do
  require (request.changes ≠ []) (.invalid "changes cannot be empty")
  let snapshotMatches := request.snapshotId.all fun expected => expected = shared.snapshotId
  let unsafePaths := changesWithoutIndependentPreconditions request.changes
  require (snapshotMatches || unsafePaths = [])
    (staleSnapshotForPaths (request.snapshotId.getD []) shared.snapshotId unsafePaths)
  ws.preflightOverlaps request.changes shared.index
  let plan ← ws.planChanges (request.snapshotId.isSome && snapshotMatches) shared.index
    request.changes ∅
  let planned := sortPlan plan
  ws.syntaxPreflight planned
  if request.preview then .ok (.preview planned)
  else do
    ws.recheckPreconditions disk planned
    .ok (.commit planned)

def prepareEdit (reconcile : ReconcileIo) (io : CommitIo) (requestId : Text)
    (request : EditRequest) (world : World) :
    AppResult (PlannedEdit × List MutationRecord) × World :=
  match ws.reconcileWith reconcile world.disk world.state with
  | (.error error, state) => (.error error, { world with state := state })
  | (.ok _, state) =>
    let world := { world with state := state }
    match ws.planEdit request world.disk world.state.shared with
    | .error error => (.error error, world)
    | .ok (.preview planned) => (.ok (.preview planned, []), world)
    | .ok (.commit planned) =>
      let (result, world) := ws.commitPlan io planned requestId world
      (result.map fun records => (.commit planned, records), world)

end Workspace

end CodeWeave
