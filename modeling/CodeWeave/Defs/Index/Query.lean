import CodeWeave.Defs.Index.Store
import CodeWeave.Lib.Codes

namespace CodeWeave

/-- `to_ascii_lowercase`. -/
def asciiLower (text : Text) : Text := text.map Char.toLower

namespace FileEntry

variable (file : FileEntry)

def pathLower : Text := asciiLower file.path

def searchContent : Text := asciiLower file.content

def lineCount : Nat := max (lines file.content).length 1

end FileEntry

def sliceLines (content : Text) (startLine endLine : Nat) : Text :=
  let start := max startLine 1
  let finish := max endLine start
  (((lines content).drop (start - 1)).take (finish + 1 - start)).foldl
    (fun output line => if output = [] then line else output ++ '\n' :: line) []

/-- The base64 of a handle's JSON, which the workspace decodes. -/
structure HandleEncoder (ws : Workspace) where
  encode : RangeHandleWire → Text
  decode_encode : ∀ handle, ws.decodeWire (encode handle) = .ok handle

def encodeHandle {ws : Workspace} (encoder : HandleEncoder ws) (handle : RangeHandleWire) : Text :=
  "range:".toList ++ encoder.encode handle

/-- `CodeIndex::files`, in no order that a caller relies on. -/
def CodeIndex.entries (index : CodeIndex) : List FileEntry :=
  index.files.entries.map Sigma.snd

theorem CodeIndex.mem_entries {index : CodeIndex} {file : FileEntry} :
    file ∈ index.entries ↔ index.lookup file.path = some file := by
  rw [entries, List.mem_map]
  constructor
  · rintro ⟨⟨path, entry⟩, mem, rfl⟩
    have found := AList.mem_lookup_iff.mpr mem
    rwa [← index.keyed path entry found] at found
  · intro found
    exact ⟨⟨file.path, file⟩, AList.mem_lookup_iff.mp found, rfl⟩

theorem CodeIndex.nodup_entries (index : CodeIndex) :
    (index.entries.map FileEntry.path).Nodup := by
  have keys : index.entries.map FileEntry.path = index.files.keys := by
    rw [entries, List.map_map]
    refine List.map_congr_left fun ⟨path, entry⟩ mem => ?_
    exact index.keyed path entry (AList.mem_lookup_iff.mpr mem)
  rw [keys]
  exact index.files.keys_nodup

def sortByPath (files : List FileEntry) : List FileEntry :=
  files.mergeSort fun left right => decide (left.path ≤ right.path)

def pathMatchesFilter (path filter : Text) : Bool :=
  if filter.getLast? = some '/' then filter <+: path
  else path = filter || (stripPrefix filter path).any fun suffix => suffix.head? = some '/'

structure PathFilterSet where
  normalized : List Text

namespace PathFilterSet

def new (filters : List Text) : PathFilterSet :=
  ⟨(filters.map normalizePathText).filter (· ≠ [])⟩

def allows (filters : PathFilterSet) (path : Text) : Bool :=
  filters.normalized = [] || filters.normalized.any (pathMatchesFilter path)

end PathFilterSet

structure SearchScope where
  workspaceId : Text
  snapshotId : SnapshotId
  paths : List Text
  maxResults : Nat

def SearchScope.limit (scope : SearchScope) : Nat := max scope.maxResults 1

theorem SearchScope.limit_ne_zero (scope : SearchScope) : scope.limit ≠ 0 :=
  Nat.ne_of_gt (Nat.le_max_right ..)

inductive TextSyntax
  | literal
  | regex
  deriving DecidableEq

def TextSyntax.asStr : TextSyntax → String
  | .literal => "literal"
  | .regex => "regex"

structure TextQuery where
  pattern : Text
  style : TextSyntax
  caseSensitive : Bool
  contextLines : Nat

inductive DocumentType
  | source
  | test
  | instruction
  | runtimeEvidence
  | artifact
  | log
  deriving DecidableEq

namespace DocumentType

def testSuffixes : List Text :=
  ["_test.rs".toList, ".test.ts".toList, ".spec.ts".toList, ".test.tsx".toList, ".spec.tsx".toList,
    ".test.js".toList, ".spec.js".toList, ".test.jsx".toList, ".spec.jsx".toList]

def artifactSuffixes : List Text :=
  [".recording.json".toList, ".fixture.json".toList, ".fixtures.json".toList,
    ".artifact.json".toList, ".artifacts.json".toList]

def classify (path : Text) : DocumentType :=
  let lower := asciiLower path
  let segments := lower.splitOn '/'
  let basename := segments.getLast?.getD lower
  if basename = "agents.md".toList ∨ basename = "claude.md".toList then .instruction
  else if (segments.any fun segment =>
        segment ∈ ["test".toList, "tests".toList, "__tests__".toList]) ∨
      "test_".toList <+: basename ∨ testSuffixes.any fun suffix => suffix <:+ basename then .test
  else if ("evidence".toList ∈ segments ∨ "runtime".toList ∈ segments) ∧
      (".json".toList <:+ basename ∨ ".log".toList <:+ basename) then .runtimeEvidence
  else if (segments.any fun segment => segment ∈ ["artifact".toList, "artifacts".toList,
        "fixture".toList, "fixtures".toList, "recording".toList, "recordings".toList]) ∨
      artifactSuffixes.any fun suffix => suffix <:+ basename then .artifact
  else if ".log".toList <:+ basename then .log
  else .source

end DocumentType

def FileEntry.documentType (file : FileEntry) : DocumentType := .classify file.path

namespace Sample

def handleCode : Code RangeHandleWire :=
  .ofParts (.pair (.list .char) (.pair (.list .char) (.pair .nat (.pair .nat (.list .char)))))
    (fun handle => (handle.workspaceId, handle.path, handle.startLine, handle.endLine,
      handle.contentHash))
    (fun (workspaceId, path, startLine, endLine, contentHash) =>
      ⟨workspaceId, path, startLine, endLine, contentHash⟩)
    fun _ => rfl

/-- Every file declares `f` in its first line. -/
def declaring : Workspace :=
  { Workspace.plain with
    extractSymbols := fun _ _ => [⟨"f".toList, "function".toList, 1, 1, "f".toList⟩]
    decodeWire := fun text =>
      match handleCode.take text with
      | some (handle, _) => .ok handle
      | none => .error (.new .invalidHandle "Invalid range handle") }

def handles : HandleEncoder declaring where
  encode := handleCode.put
  decode_encode handle := by
    have taken := handleCode.take_put handle []
    rw [List.append_nil] at taken
    simp only [declaring, taken]

end Sample

end CodeWeave
