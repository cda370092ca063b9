import CodeWeave.Defs.Repository.Diff
import CodeWeave.Defs.Utf8

/-! The diff of the `git` command line backend: what `git` prints, and new-file patches
for untracked files, cut to a number of bytes. -/

namespace CodeWeave

/-- What the `git` executable prints at one moment, read lossily, and where the links
of the disk lead. -/
structure Repository where
  gitDiff : (staged : Bool) → (paths : List Text) → AppResult Text
  gitLsFiles : (paths : List Text) → AppResult Text
  linkTarget : List Text → Text
  faults : ReadFaults

def truncationMarker : Text := "\n… output truncated …".toList

-- A budget of `none` is `usize::MAX`, beyond any text.
abbrev Budget := Option Nat

def Budget.holds (budget : Budget) (bytes : Nat) : Bool := budget.all (bytes ≤ ·)

def Budget.less (budget : Budget) (bytes : Nat) : Budget := budget.map (· - bytes)

def truncateOutput (text : Text) (budget : Budget) : Text :=
  match budget with
  | none => text
  | some maxChars =>
    if utf8Count text ≤ maxChars then text
    else
      let marker := if utf8Count truncationMarker ≤ maxChars then truncationMarker else []
      takeBytes text (maxChars - utf8Count marker) ++ marker

def utf8Prefix (bytes : ByteArray) (truncated : Bool) : Option (Text × Bool) :=
  match fromUtf8 bytes with
  | some content => some (content, truncated)
  | none =>
    if truncated then
      [1, 2, 3].findSome? fun cut =>
        if incompleteChar (bytes.extract (bytes.size - cut) bytes.size).data.toList then
          (fromUtf8 (bytes.extract 0 (bytes.size - cut))).map fun content => (content, truncated)
        else none
    else none

def stringPrefix (text : Text) (budget : Budget) : Text × Bool :=
  match budget with
  | none => (text, false)
  | some maxBytes =>
    if utf8Count text ≤ maxBytes then (text, false) else (takeBytes text maxBytes, true)

namespace Repository

variable (repo : Repository) (disk : Disk)

def readLink (path : RelPath) : Option Text :=
  match disk.node path.components with
  | some (.link _ _) => some (repo.linkTarget path.components)
  | _ => none

def readPrefix (path : RelPath) (budget : Budget) : Option (ByteArray × Bool) :=
  match disk.node path.components, repo.faults path.components with
  | some (.file bytes _), none =>
    some (budget.elim (bytes, false) fun maxBytes => (bytes.extract 0 maxBytes, maxBytes < bytes.size))
  | _, _ => none

def untrackedContent (path : RelPath) (budget : Budget) : Option (String × Text × Bool) :=
  match repo.readLink disk path with
  | some target => some ("120000", stringPrefix target budget)
  | none =>
    (repo.readPrefix disk path budget).bind fun (bytes, truncated) =>
      (utf8Prefix bytes truncated).map fun content => ("100644", content)

def newFileHeader (path : RelPath) (mode : String) : Text :=
  "diff --git a/".toList ++ path.text ++ " b/".toList ++ path.text ++ "\nnew file mode ".toList ++
    mode.toList ++ "\n--- /dev/null\n+++ b/".toList ++ path.text ++ ['\n']

def newFileHunk (content : Text) (truncated : Bool) : Text :=
  (match (lines content).length with
    | 0 => []
    | 1 => "@@ -0,0 +1 @@\n".toList
    | count => "@@ -0,0 +1,".toList ++ decimal count ++ " @@\n".toList) ++
  (lines content).flatMap (fun line => '+' :: line ++ ['\n']) ++
  (if !truncated && content.getLast? ≠ some '\n' then "\\ No newline at end of file\n".toList else [])

def untrackedPatches (budget : Budget) : List RelPath → Text → Text
  | [], diff => diff
  | path :: rest, diff =>
    let remaining := budget.less (utf8Count diff + utf8Count (newFileHeader path "100644"))
    match repo.untrackedContent disk path remaining with
    | none => untrackedPatches budget rest diff
    | some (mode, content, truncated) =>
      let diff := diff ++ newFileHeader path mode ++ newFileHunk content truncated
      if truncated || !budget.holds (utf8Count diff) then
        let diff := if budget.holds (utf8Count diff) then diff ++ ['\n'] else diff
        truncateOutput diff budget
      else untrackedPatches budget rest diff

def untrackedPaths (output : Text) : List RelPath :=
  ((output.splitOn (Char.ofNat 0)).filter (· ≠ [])).filterMap fun path =>
    let path := normalizePathText path
    if path = [] then none
    else
      match RelPath.new path with
      | .ok path => some path
      | .error _ => none

def untrackedDiff (paths : List RelPath) (budget : Budget) : AppResult Text := do
  let output ← repo.gitLsFiles ((paths.map RelPath.text).filter (· ≠ []))
  .ok (repo.untrackedPatches disk budget (untrackedPaths output) [])

/-- The text of `CliGitBackend::diff`. -/
def diffText (staged : Bool) (paths : List RelPath) (budget : Budget) : AppResult Text := do
  let printed ← repo.gitDiff staged (paths.map RelPath.text)
  let diff := truncateOutput printed budget
  if staged || paths.isEmpty || budget.any (· ≤ utf8Count diff) then .ok diff
  else
    let untracked ← repo.untrackedDiff disk paths (budget.less (utf8Count diff))
    let diff :=
      if diff ≠ [] ∧ untracked ≠ [] ∧ diff.getLast? ≠ some '\n' then diff ++ ['\n'] else diff
    .ok (truncateOutput (diff ++ untracked) budget)

def diff (ws : Workspace) (staged : Bool) (paths : List RelPath) (budget : Budget) :
    AppResult Diff :=
  (repo.diffText disk staged paths budget).map (Diff.parse ws)

end Repository

end CodeWeave
