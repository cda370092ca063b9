import CodeWeave.Defs.State.Reconciled
import Mathlib.Data.Finset.Sort

namespace CodeWeave

def normalizedPath (path : Text) : Option Text :=
  let path := normalizePathText path
  if path = [] then none else some path

def splitN (separator : Char) : Nat → Text → List Text
  | 0, _ => []
  | 1, text => [text]
  | n + 2, text =>
    match splitOnce separator text with
    | none => [text]
    | some (before, after) => before :: splitN separator (n + 1) after

def porcelainPath (record : Text) (fieldCount : Nat) : Option Text :=
  (splitN ' ' fieldCount record)[fieldCount - 1]?.bind normalizedPath

structure StatusParse where
  head : Text
  branch : Text
  dirty : Finset Text
  staged : Finset Text
  unstaged : Finset Text
  untracked : Finset Text

namespace StatusParse

def start : StatusParse := ⟨[], [], ∅, ∅, ∅, ∅⟩

def change (status : StatusParse) (record path : Text) : StatusParse :=
  let x := record[2]?.getD '.'
  let y := record[3]?.getD '.'
  { status with
    dirty := insert path status.dirty
    staged := if x ≠ '.' then insert path status.staged else status.staged
    unstaged := if y ≠ '.' then insert path status.unstaged else status.unstaged }

def unmerge (status : StatusParse) (path : Text) : StatusParse :=
  { status with
    dirty := insert path status.dirty
    staged := insert path status.staged
    unstaged := insert path status.unstaged }

def untrack (status : StatusParse) (path : Text) : StatusParse :=
  { status with
    dirty := insert path status.dirty
    untracked := insert path status.untracked }

def record (status : StatusParse) (record : Text) (next : Option Text) : StatusParse × Bool :=
  match stripPrefix "# branch.oid ".toList record with
  | some oid => (if oid ≠ "(initial)".toList then { status with head := oid } else status, false)
  | none =>
    match stripPrefix "# branch.head ".toList record with
    | some branch =>
      (if branch ≠ "(detached)".toList then { status with branch := branch } else status, false)
    | none =>
      if record.head? = some '1' then
        ((porcelainPath record 9).elim status (status.change record), false)
      else if record.head? = some '2' then
        let status := (porcelainPath record 10).elim status (status.change record)
        match next.bind normalizedPath with
        | some original => ({ status with dirty := insert original status.dirty }, true)
        | none => (status, false)
      else if record.head? = some 'u' then
        ((porcelainPath record 11).elim status status.unmerge, false)
      else if record.head? = some '?' then
        (((stripPrefix "? ".toList record).bind normalizedPath).elim status status.untrack, false)
      else (status, false)

-- The flag says that the first record has been taken with the one before.
def records : StatusParse → Bool → List Text → StatusParse
  | status, _, [] => status
  | status, true, _ :: rest => records status false rest
  | status, false, record :: rest =>
    let (status, taken) := status.record record rest.head?
    records status taken rest

def repoStatus (status : StatusParse) : RepoStatus where
  isGit := true
  head := status.head
  branch := status.branch
  dirtyFiles := status.dirty.sort
  stagedFiles := status.staged.sort
  unstagedFiles := status.unstaged.sort
  untrackedFiles := status.untracked.sort
  partiallyStagedFiles := (status.staged ∩ status.unstaged).sort

end StatusParse

def parsePorcelainV2 (raw : Text) : RepoStatus :=
  (StatusParse.start.records false ((raw.splitOn (Char.ofNat 0)).filter (· ≠ []))).repoStatus

end CodeWeave
