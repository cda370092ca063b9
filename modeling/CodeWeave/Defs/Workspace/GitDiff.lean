import CodeWeave.Defs.Index.Symbols
import CodeWeave.Defs.Repository.CliGit
import CodeWeave.Defs.Workspace.System
import CodeWeave.Lib.Paging

namespace CodeWeave

structure GitDiffRequest where
  paths : Option (List Text)
  staged : Option Bool
  maxChars : Option Nat
  startLine : Option Nat
  endLine : Option Nat
  symbol : Option Text
  hunkIds : Option (List Text)
  continuation : Option Text
  deriving DecidableEq

structure GitDiffScope where
  staged : Bool
  paths : List Text
  symbol : Option Text
  startLine : Option Nat
  endLine : Option Nat
  hunkIds : List Text
  deriving DecidableEq

namespace GitDiffRequest

def hasScope (request : GitDiffRequest) : Bool :=
  request.paths.isSome || request.staged.isSome || request.symbol.isSome ||
    request.startLine.isSome || request.endLine.isSome || request.hunkIds.isSome

def following (token : Text) (maxChars : Option Nat) : GitDiffRequest :=
  ⟨none, none, maxChars, none, none, none, none, some token⟩

end GitDiffRequest

namespace GitDiffScope

def fromRequest (request : GitDiffRequest) : GitDiffScope where
  staged := request.staged.getD false
  paths := request.paths.getD []
  symbol := request.symbol
  startLine := request.startLine
  endLine := request.endLine
  hunkIds := request.hunkIds.getD []

def json (scope : GitDiffScope) : Value :=
  CodeWeave.json [("staged", .bool scope.staged),
    ("paths", .list (scope.paths.map .string)),
    ("symbol", (scope.symbol.map .string).getD .null),
    ("start_line", (scope.startLine.map fun line => .number line).getD .null),
    ("end_line", (scope.endLine.map fun line => .number line).getD .null),
    ("hunk_ids", .list (scope.hunkIds.map .string))]

end GitDiffScope

structure GitDiffContinuation where
  snapshotId : SnapshotId
  offset : Nat
  scope : GitDiffScope
  deriving DecidableEq

structure ContinuationCodec where
  encode : GitDiffContinuation → Text
  decode : Text → Option GitDiffContinuation
  decode_encode : ∀ continuation, decode (encode continuation) = some continuation

def encodeGitDiffContinuation (codec : ContinuationCodec) (value : GitDiffContinuation) : Text :=
  "git-diff:".toList ++ codec.encode value

def decodeGitDiffContinuation (codec : ContinuationCodec) (value : Text) :
    AppResult GitDiffContinuation :=
  match (stripPrefix "git-diff:".toList value).bind codec.decode with
  | some continuation => .ok continuation
  | none => .error (.invalid "Invalid git diff continuation")

theorem decode_encodeGitDiffContinuation (codec : ContinuationCodec)
    (value : GitDiffContinuation) :
    decodeGitDiffContinuation codec (encodeGitDiffContinuation codec value) = .ok value := by
  have payload : stripPrefix "git-diff:".toList (encodeGitDiffContinuation codec value) =
      some (codec.encode value) := stripPrefix_append _ _
  have whole : (stripPrefix "git-diff:".toList (encodeGitDiffContinuation codec value)).bind
      codec.decode = some value := by
    rw [payload, Option.bind_some, codec.decode_encode]
  simp only [decodeGitDiffContinuation, whole]

structure GitPolicy where
  maxContextChars : Nat
  codec : ContinuationCodec

/-- A page as `git_diff` answers with it.  Of `hunks` a client sees id, path and spans;
their texts are the output. -/
structure GitDiffPage where
  output : Text
  hunks : List DiffHunk
  truncated : Bool
  continuation : Option Text
  scope : GitDiffScope
  requestedChars : Nat
  appliedChars : Nat
  configuredMaxChars : Nat
  generation : Nat
  snapshotId : SnapshotId
  deriving DecidableEq

def validatePaths (paths : List Text) : AppResult (List RelPath) := paths.mapM RelPath.new

def fillPage (appliedChars count : Nat) : Nat → List DiffHunk → Text → List DiffHunk →
    Text × List DiffHunk × Option Nat
  | _, [], output, selected => (output, selected, none)
  | index, hunk :: rest, output, selected =>
    if output ≠ [] ∧ appliedChars < utf8Count output + utf8Count hunk.text then
      (output, selected, some index)
    else if appliedChars < utf8Count hunk.text then
      (output ++ hunk.text, selected ++ [hunk],
        if index + 1 < count then some (index + 1) else none)
    else fillPage appliedChars count (index + 1) rest (output ++ hunk.text) (selected ++ [hunk])

namespace Workspace

variable (ws : Workspace) (policy : GitPolicy) (repo : Repository) (world : World)

def symbolRange (paths : List RelPath) (scope : GitDiffScope) (symbol : Text) :
    AppResult (Nat × Nat) :=
  match paths with
  | [path] =>
    let found := world.state.shared.index.findSymbolsAt path.text symbol
    match found with
    | [definition] => .ok (definition.symbol.startLine, definition.symbol.endLine)
    | _ => .error (.withDetails (if found = [] then .symbolNotFound else .ambiguousSymbol)
        "git_diff symbol focus requires one indexed declaration"
        (.json (json [("path", .string (scope.paths.headD [])), ("symbol", .string symbol),
          ("candidates", .list (found.map fun definition =>
            json [("path", .string definition.path), ("symbol", definition.symbol.json)]))])))
  | _ => .error (.invalid "git_diff symbol focus requires exactly one path")

def focusRanges (paths : List RelPath) (scope : GitDiffScope) : AppResult (List (Nat × Nat)) := do
  let ranges ← match scope.symbol with
    | some symbol => (symbolRange world paths scope symbol).map fun range => [range]
    | none => .ok []
  match scope.startLine, scope.endLine with
  | some start, some finish => .ok (ranges ++ [(start, finish)])
  | _, _ => .ok ranges

def selectedHunks (budget : Budget) (scope : GitDiffScope) : AppResult (List DiffHunk) := do
  let paths ← validatePaths scope.paths
  let diff ← repo.diff world.disk ws scope.staged paths budget
  let ranges ← focusRanges world paths scope
  .ok (diff.select ranges scope.hunkIds)

def requestedScope (request : GitDiffRequest) : AppResult (GitDiffScope × Nat) :=
  let snapshot := world.state.shared.snapshotId
  let requested := GitDiffScope.fromRequest request
  match request.continuation with
  | none => .ok (requested, 0)
  | some token => do
    let continuation ← decodeGitDiffContinuation policy.codec token
    if continuation.snapshotId ≠ snapshot then
      .error (.withDetails .staleContinuation
        "Repository changed after the diff continuation was created"
        (.json (json [("expected_snapshot", .string continuation.snapshotId),
          ("current_snapshot", .string snapshot)])))
    else if request.hasScope ∧ requested ≠ continuation.scope then
      .error (.withDetails .continuationScopeMismatch
        "Git diff continuation scope does not match the supplied filters"
        (.json (json [("continuation_scope", continuation.scope.json),
          ("requested_scope", requested.json)])))
    else .ok (continuation.scope, continuation.offset)

def gitDiff (request : GitDiffRequest) : AppResult GitDiffPage := do
  let _ ← validatePaths (request.paths.getD [])
  let requestedChars := request.maxChars.getD policy.maxContextChars
  let appliedChars := min requestedChars policy.maxContextChars
  let (scope, offset) ← requestedScope policy world request
  let hunks ← ws.selectedHunks repo world (some policy.maxContextChars) scope
  let (output, selected, next) :=
    fillPage appliedChars hunks.length offset (hunks.drop offset) [] []
  let snapshot := world.state.shared.snapshotId
  let continuation := next.map fun index =>
    encodeGitDiffContinuation policy.codec ⟨snapshot, index, scope⟩
  .ok ⟨output, selected, continuation.isSome, continuation, scope, requestedChars, appliedChars,
    policy.maxContextChars, world.state.shared.generation, snapshot⟩

end Workspace

end CodeWeave
