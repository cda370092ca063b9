import CodeWeave.Defs.Repository.GitArguments
import CodeWeave.Defs.Workspace.GitDiff
import CodeWeave.Defs.Workspace.System

namespace CodeWeave

structure GitShowRequest where
  reference : Text
  maxChars : Option Nat

structure GitBlameRequest where
  paths : List Text
  startLine : Option Nat
  endLine : Option Nat
  maxChars : Option Nat

structure GitRestoreRequest where
  paths : List Text
  staged : Bool
  confirm : Bool

structure GitPushRequest where
  remote : Option Text
  branch : Option Text
  confirm : Bool

inductive GitAction
  | status
  | diff (request : GitDiffRequest)
  | log (limit : Nat)
  | show (request : GitShowRequest)
  | blame (request : GitBlameRequest)
  | preflight
  | stage (paths : List Text)
  | commit (message : Text)
  | restore (request : GitRestoreRequest)
  | push (request : GitPushRequest)

def GitAction.name : GitAction → String
  | .status => "status"
  | .diff _ => "diff"
  | .log _ => "log"
  | .show _ => "show"
  | .blame _ => "blame"
  | .preflight => "preflight"
  | .stage _ => "stage"
  | .commit _ => "commit"
  | .restore _ => "restore"
  | .push _ => "push"

def isControl (c : Char) : Bool := c.toNat ≤ 0x1f || (0x7f ≤ c.toNat && c.toNat ≤ 0x9f)

def validatedPushTarget (request : GitPushRequest) (currentBranch : Text) :
    AppResult (Text × Text) :=
  let remote := request.remote.getD "origin".toList
  if remote = [] ∨ trim remote ≠ remote ∨ remote.head? = some '-' ∨ remote.head? = some '+' ∨
      ':' ∈ remote then
    .error (.invalid "git push remote must be a non-empty remote name, not an option or URL")
  else
    let branch := request.branch.getD currentBranch
    let invalidRefCharacter := branch.any fun ch =>
      isControl ch || isWhitespace ch || "~^:?*[\\".toList.contains ch
    let invalidComponent := (branch.splitOn '/').any fun component =>
      component = [] || component.head? = some '.' || ".lock".toList.isSuffixOf component
    if branch = [] ∨ branch.head? = some '-' ∨ branch.head? = some '+' ∨ branch = ['@'] ∨
        "..".toList <:+: branch ∨ "@\x7b".toList <:+: branch ∨ branch.getLast? = some '.' ∨
        invalidRefCharacter = true ∨ invalidComponent = true then
      .error (.invalid "git push branch must be a valid branch name, not an option or refspec")
    else .ok (remote, branch)

structure GitIo where
  reconcile : ReconcileIo
  git : CliGitBackend
  restored : Disk
  scan : ScanIo

inductive GitAnswer
  | status (status : RepoStatus) (stamp : Stamp)
  | diff (page : GitDiffPage)
  | preflight (stagedFiles partiallyStagedFiles : List Text) (cachedDiff : Text) (stamp : Stamp)
  | output (action : String) (output : Text) (stamp : Stamp) (repoStatusStale : Bool)

namespace Workspace

variable (ws : Workspace) (policy : GitPolicy) (io : GitIo) (world : World)

-- Whether a reconcile gets as far as `git status`, and has a reason to run it.
def reconcileConsults (io : ReconcileIo) (disk : Disk) (state : ReconciledState) : Bool :=
  state.ledger.needsReconcile &&
    match (state.ledger.drainPending ws disk io.now).1 with
    | none => false
    | some drain =>
      match (if drain.paths = [] then .ok []
        else (ws.refreshPaths disk io.faults (io.order.run drain.paths) state.shared.index).1 :
          AppResult (List Text)) with
      | .error _ => false
      | .ok changed => drain.gitEvent || changed ≠ []

def runReconcilePending : GitRun World :=
  let (reconciled, state) := ws.reconcilePending io.reconcile world.disk world.state
  ⟨reconciled.map fun _ => { world with state := state },
    if ws.reconcileConsults io.reconcile world.disk world.state then [statusArguments] else []⟩

def runRefreshRepoStatus : GitRun World := do
  let status ← io.git.runStatus
  pure { world with state := (ws.refreshRepoStatus (.ok status) world.state).2 }

def charBudget (requested : Option Nat) : Budget :=
  some (min (requested.getD policy.maxContextChars) policy.maxContextChars)

def runGitDiff (request : GitDiffRequest) : GitRun GitDiffPage := do
  let _ ← .lift (validatePaths (request.paths.getD []))
  let requestedChars := request.maxChars.getD policy.maxContextChars
  let appliedChars := min requestedChars policy.maxContextChars
  let (scope, offset) ← .lift (requestedScope policy world request)
  let paths ← .lift (validatePaths scope.paths)
  let text ← io.git.diff world.disk scope.staged paths (some policy.maxContextChars)
  let ranges ← .lift (focusRanges world paths scope)
  let hunks := (Diff.parse ws text).select ranges scope.hunkIds
  let (output, selected, next) :=
    fillPage appliedChars hunks.length offset (hunks.drop offset) [] []
  let snapshot := world.state.shared.snapshotId
  let continuation := next.map fun index =>
    encodeGitDiffContinuation policy.codec ⟨snapshot, index, scope⟩
  pure ⟨output, selected, continuation.isSome, continuation, scope, requestedChars, appliedChars,
    policy.maxContextChars, world.state.shared.generation, snapshot⟩

/-- `git_mutation`, of an action that holds the permit. The status at the end is
refreshed whether it can be read or not. -/
def runGitMutation (mutation : AppResult Unit → GitMutation) (output : GitRun Text) :
    GitRun (Text × World) := do
  let output ← output
  let _ ← .act statusArguments (.ok ())
  pure (output, (ws.gitMutation (mutation (.ok ())) world).2)

/-- The rescan after a restore gets to the status once the tree is scanned. -/
def runRescan : GitRun World :=
  let (rescanned, state) := ws.rescan io.scan io.git.status io.restored world.state
  ⟨rescanned.map fun _ => ⟨io.restored, state⟩,
    if (ws.scan io.restored io.scan).isOk then [statusArguments] else []⟩

def outputAnswer (action : GitAction) (output : Text) (world : World) : GitAnswer :=
  .output action.name output world.state.shared.stamp world.state.shared.repoStatusStale

/-- `git_blocking` after its reconcile. -/
def runGitAction (action : GitAction) : GitRun GitAnswer :=
  match action with
  | .status => do
    let world ← ws.runRefreshRepoStatus io world
    pure (.status world.state.shared.repoStatus world.state.shared.stamp)
  | .diff request => do
    let page ← ws.runGitDiff policy io world request
    pure (.diff page)
  | .log limit => do
    let output ← io.git.log limit
    pure (outputAnswer action output world)
  | .show request => do
    let output ← io.git.showRef request.reference (charBudget policy request.maxChars)
    pure (outputAnswer action output world)
  | .blame request => do
    let paths ← .lift (validatePaths request.paths)
    match paths with
    | [] => .lift (.error (.invalid "git blame requires one path"))
    | path :: _ => do
      let output ← io.git.blame path request.startLine request.endLine
        (charBudget policy request.maxChars)
      pure (outputAnswer action output world)
  | .preflight => do
    let world ← ws.runRefreshRepoStatus io world
    let diff ← io.git.diff world.disk true [] (some policy.maxContextChars)
    pure (.preflight world.state.shared.repoStatus.stagedFiles
      world.state.shared.repoStatus.partiallyStagedFiles diff world.state.shared.stamp)
  | .stage paths => do
    let paths ← .lift (validatePaths paths)
    let (output, world) ← ws.runGitMutation world (.stage · io.git.status) (io.git.stage paths)
    pure (outputAnswer action output world)
  | .commit message => do
    let (output, world) ← ws.runGitMutation world (.commit · io.git.status) (io.git.commit message)
    pure (outputAnswer action output world)
  | .restore request => do
    let paths ← .lift (validatePaths request.paths)
    if !request.confirm then
      .lift (.error (.new .confirmationRequired "git restore requires confirm=true"))
    else do
      let output ← io.git.restore paths request.staged
      let world ← ws.runRescan io world
      pure (outputAnswer action output world)
  | .push request =>
    if !request.confirm then
      .lift (.error (.new .confirmationRequired "git push requires confirm=true"))
    else do
      let status ← io.git.runStatus
      let (remote, branch) ← .lift (validatedPushTarget request status.branch)
      let output ← io.git.push remote branch
      pure (outputAnswer action output world)

def runGit (action : GitAction) : GitRun GitAnswer := do
  let world ← ws.runReconcilePending io world
  ws.runGitAction policy io world action

theorem runGitDiff_result (request : GitDiffRequest) :
    (ws.runGitDiff policy io world request).result =
      ws.gitDiff policy io.git.repository world request := by
  have bound {A B : Type} (m : GitRun A) (f : A → GitRun B) : (m >>= f).result =
    m.result.bind fun a => (f a).result := Traced.bind_result m f
  simp only [runGitDiff, bound, Traced.lift, CliGitBackend.diff_result]
  simp only [gitDiff, selectedHunks, Repository.diff, bind]
  cases validatePaths (request.paths.getD []) with
  | error error => rfl
  | ok paths =>
    cases requestedScope policy world request with
    | error error => rfl
    | ok requested =>
      obtain ⟨scope, offset⟩ := requested
      simp only [Except.bind]
      cases validatePaths scope.paths with
      | error error => rfl
      | ok paths =>
        simp only
        cases io.git.repository.diffText world.disk scope.staged paths
          (some policy.maxContextChars) with
        | error error => rfl
        | ok text =>
          simp only [Except.map]
          cases focusRanges world paths scope with
          | error error => rfl
          | ok ranges => rfl

end Workspace

end CodeWeave
