import CodeWeave.Defs.Disk
import Mathlib.Data.List.DropRight

namespace CodeWeave

abbrev ContentHash := Text

abbrev SnapshotId := Text

abbrev Digest := Vector UInt8 32

abbrev Instant := Nat

abbrev Timestamp := Nat

structure Symbol where
  name : Text
  kind : Text
  startLine : Nat
  endLine : Nat
  signature : Text
  deriving DecidableEq

structure RangeHandleWire where
  workspaceId : Text
  path : Text
  startLine : Nat
  endLine : Nat
  contentHash : ContentHash
  deriving DecidableEq

/-- The fixed part of a workspace: its configuration, and the functions it calls
that are not in the repository. -/
structure Workspace where
  id : Text
  root : List Text
  maxFileBytes : Nat
  artifactPaths : List Text
  -- the compiled exclusion patterns, on a relative path and whether it is a directory
  matcher : Text → Bool → Bool
  -- the ignore files a walk honours
  walkIgnored : List Text → Bool → Bool
  contentHash : Text → ContentHash
  sha256 : ByteArray → Digest
  extractSymbols : Text → Text → List Symbol
  parseHasError : Text → Text → Option Bool
  -- base64 and JSON decoding of a handle's payload
  decodeWire : Text → AppResult RangeHandleWire

/-- Every byte weighed by its position into one of 32 slots: a digest to run the
model with. -/
def weighedDigest (bytes : ByteArray) : Digest :=
  Vector.ofFn fun slot =>
    bytes.data.toList.zipIdx.foldl
      (fun acc (byte, position) => if position % 32 = slot.val then acc * 31 + byte else acc) 0

/-- A workspace that excludes nothing and whose texts are their own hashes. -/
def Workspace.plain : Workspace where
  id := "ws".toList
  root := ["w".toList]
  maxFileBytes := 1000
  artifactPaths := []
  matcher _ _ := false
  walkIgnored _ _ := false
  contentHash text := text
  sha256 := weighedDigest
  extractSymbols _ _ := []
  parseHasError _ _ := none
  decodeWire _ := .error (.new .invalidHandle "Invalid range handle")

def tempFileMarker : Text := ".codeweave-".toList

def ignoredPathComponent (name : Text) : Bool :=
  [".git", "node_modules", "target", "dist", "build", ".next", ".venv", "venv",
    ".codeweave-cache"].any (fun ignored => name = ignored.toList) ||
    "target-".toList.isPrefixOf name || "target_".toList.isPrefixOf name

def ignoredWorkspacePath (path : Text) : Bool :=
  ((normalizePathText path).splitOn '/').any ignoredPathComponent

def trimSlashes (text : Text) : Text :=
  (text.dropWhile (· = '/')).rdropWhile (· = '/')

/-- `WorkspaceExclusions::relative_path`. Only paths below the root have one. -/
def PathBuf.relativePath : PathBuf → Option Text
  | .below text => some (trimSlashes (text.map fun c => if c = '\\' then '/' else c))
  | .outside _ => none

namespace Workspace

def isIgnored (ws : Workspace) (path : PathBuf) (isDir : Bool) : Bool :=
  match path.relativePath with
  | none => false
  | some relative => ignoredWorkspacePath relative || ws.matcher relative isDir

def isTempFile (ws : Workspace) (path : PathBuf) : Bool :=
  (path.fileName ws.root).any fun name => tempFileMarker <:+: name

def excludedDir (ws : Workspace) (path : PathBuf) : Bool :=
  (path.fileName ws.root).any ignoredPathComponent

def excludedPath (ws : Workspace) (path : PathBuf) : Bool :=
  (path.fileName ws.root).any (fun name => tempFileMarker <:+: name) ||
    (path.components ws.root).any ignoredPathComponent

end Workspace

end CodeWeave
