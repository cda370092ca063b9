import CodeWeave.Defs.Repository.CliGit
import CodeWeave.Defs.State.Reconciled
import CodeWeave.Lib.Arguments
import CodeWeave.Lib.Traced

/-! The argument vectors the `git` command line backend hands to `git`. What comes from
its parameters is the client's. -/

namespace CodeWeave

abbrev GitArguments := List (Argument Text)

/-- A computation that runs `git`, by the argument vectors. -/
abbrev GitRun := Traced AppError GitArguments

open Arguments

def ownTexts (texts : List String) : GitArguments := own (texts.map String.toList)

def statusArguments : GitArguments :=
  ownTexts ["status", "--porcelain=v2", "-z", "--branch", "--untracked-files=all"]

def diffArguments (staged : Bool) (paths : List Text) : GitArguments :=
  ownTexts ["diff", "--no-ext-diff", "--unified=3"] ++
    (if staged then ownTexts ["--cached"] else []) ++
    (if paths = [] then [] else ownTexts ["--"] ++ client paths)

def lsFilesArguments (paths : List Text) : GitArguments :=
  ownTexts ["ls-files", "--others", "--exclude-standard", "-z", "--"] ++ client paths

def logArguments (limit : Nat) : GitArguments :=
  own ["log".toList, "-n".toList ++ decimal limit, "--date=iso-strict".toList,
    "--pretty=format:%H%x09%ad%x09%an%x09%s".toList]

def showArguments (reference : Text) : GitArguments :=
  ownTexts ["show", "--stat", "--patch"] ++ client [reference]

def blameArguments (path : Text) (start finish : Option Nat) : GitArguments :=
  ownTexts ["blame", "--date=short"] ++
    (match start, finish with
      | some start, some finish => own ["-L".toList ++ decimal start ++ [','] ++ decimal finish]
      | _, _ => []) ++
    ownTexts ["--"] ++ client [path]

def addArguments (paths : List Text) : GitArguments := ownTexts ["add", "--"] ++ client paths

def commitArguments (message : Text) : GitArguments := ownTexts ["commit", "-m"] ++ client [message]

def restoreArguments (paths : List Text) (staged : Bool) : GitArguments :=
  ownTexts ["restore"] ++ (if staged then ownTexts ["--staged"] else []) ++ ownTexts ["--"] ++
    client paths

def pushArguments (remote branch : Text) : GitArguments :=
  ownTexts ["push"] ++ client [remote] ++ (if branch = [] then [] else client [branch])

/-- What `git` prints for its arguments, read lossily, what the status it prints is, and
where the links of the disk lead. -/
structure CliGitBackend where
  printed : List Text → AppResult Text
  status : AppResult RepoStatus
  linkTarget : List Text → Text
  faults : ReadFaults

namespace CliGitBackend

variable (git : CliGitBackend) (disk : Disk)

def repository : Repository where
  gitDiff staged paths := git.printed ((diffArguments staged paths).map Argument.text)
  gitLsFiles paths := git.printed ((lsFilesArguments paths).map Argument.text)
  linkTarget := git.linkTarget
  faults := git.faults

def run (arguments : GitArguments) (maxChars : Budget) : GitRun Text :=
  .act arguments ((git.printed (arguments.map Argument.text)).map (truncateOutput · maxChars))

def runStatus : GitRun RepoStatus := .act statusArguments git.status

def untrackedDiff (paths : List RelPath) (maxChars : Budget) : GitRun Text := do
  let untracked ← git.run (lsFilesArguments ((paths.map RelPath.text).filter (· ≠ []))) none
  pure (git.repository.untrackedPatches disk maxChars (Repository.untrackedPaths untracked) [])

def diff (staged : Bool) (paths : List RelPath) (maxChars : Budget) : GitRun Text := do
  let diff ← git.run (diffArguments staged (paths.map RelPath.text)) maxChars
  if staged || paths.isEmpty || maxChars.any (· ≤ utf8Count diff) then pure diff
  else do
    let untracked ← git.untrackedDiff disk paths (maxChars.less (utf8Count diff))
    let diff :=
      if diff ≠ [] ∧ untracked ≠ [] ∧ diff.getLast? ≠ some '\n' then diff ++ ['\n'] else diff
    pure (truncateOutput (diff ++ untracked) maxChars)

def log (limit : Nat) : GitRun Text := git.run (logArguments limit) (some 100000)

def showRef (reference : Text) (maxChars : Budget) : GitRun Text :=
  git.run (showArguments reference) maxChars

def blame (path : RelPath) (start finish : Option Nat) (maxChars : Budget) : GitRun Text :=
  git.run (blameArguments path.text start finish) maxChars

def stage (paths : List RelPath) : GitRun Text :=
  if paths.isEmpty then .lift (.error (.invalid "git stage requires paths"))
  else do
    let _ ← git.run (addArguments (paths.map RelPath.text)) (some 20000)
    pure ("Staged ".toList ++ decimal paths.length ++ " path(s)".toList)

def commit (message : Text) : GitRun Text :=
  if trim message = [] then .lift (.error (.invalid "git commit requires message"))
  else git.run (commitArguments message) (some 50000)

def restore (paths : List RelPath) (staged : Bool) : GitRun Text :=
  if paths.isEmpty then .lift (.error (.invalid "git restore requires paths"))
  else do
    let _ ← git.run (restoreArguments (paths.map RelPath.text) staged) (some 20000)
    pure ("Restored ".toList ++ decimal paths.length ++ " path(s)".toList)

def push (remote branch : Text) : GitRun Text := git.run (pushArguments remote branch) (some 20000)

theorem untrackedDiff_result (paths : List RelPath) (maxChars : Budget) :
    (git.untrackedDiff disk paths maxChars).result =
      git.repository.untrackedDiff disk paths maxChars := by
  rw [untrackedDiff, Traced.bind_result, Repository.untrackedDiff]
  simp only [run, Traced.act, repository]
  cases git.printed ((lsFilesArguments ((paths.map RelPath.text).filter (· ≠ []))).map
    Argument.text) with
  | error error => rfl
  | ok printed => rfl

theorem diff_result (staged : Bool) (paths : List RelPath) (maxChars : Budget) :
    (git.diff disk staged paths maxChars).result =
      git.repository.diffText disk staged paths maxChars := by
  rw [diff, Traced.bind_result, Repository.diffText]
  have printed : git.repository.gitDiff staged (paths.map RelPath.text) =
    git.printed ((diffArguments staged (paths.map RelPath.text)).map Argument.text) := rfl
  rw [printed]
  simp only [run, Traced.act]
  cases git.printed ((diffArguments staged (paths.map RelPath.text)).map Argument.text) with
  | error error => rfl
  | ok printed =>
    simp only [Except.map, Except.bind, bind]
    split
    · rfl
    · rw [← untrackedDiff_result]
      exact Traced.bind_result _ _

end CliGitBackend

/-- What `git` reads as an option, and what keeps it from doing so. -/
def gitOptions : Arguments.Syntax Text where
  ends text := text = "--".toList
  takesValue text := text = "-m".toList
  isOption text := text.head? = some '-'

end CodeWeave
