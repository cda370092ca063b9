import CodeWeave.Defs.Intelligence.Server
import CodeWeave.Defs.ReferenceService
import CodeWeave.Defs.Workspace.Contents

/-! The fresh-document session.  While a request runs, the disk and the index move on:
each time the request looks at one of them, it sees another moment of the workspace. -/

namespace CodeWeave

open Runs

/-- The workspace while a request looks at it: what happens before each look, and which
reads of the disk fail then. -/
structure Interleaving (ws : Workspace) where
  start : World
  opened : ws.Opened start
  between : Nat → List Action
  faults : Nat → ReadFaults

structure SemanticBackend (ws : Workspace) where
  languageId : Text
  execute : WorkerOperation → DocumentSnapshot ws.contentHash → Except WorkerError WorkerResponse
  status : Value

structure Session where
  relative : Text
  content : Text
  hash : ContentHash

-- `moment` is a ghost.
structure ReadFile where
  text : Text
  moment : Nat
  deriving DecidableEq

structure ResultFiles where
  clock : Nat
  contents : Table Text ReadFile

structure FallbackReason where
  error : AppError
  backendStatus : Value

def maxResultFileBytes : Nat := 16 * 1024 * 1024

def stale (phase message : String) (details : List (String × Value)) : AppError :=
  .withDetails .intelligenceStale message (.json (json (details ++ [("phase", .str phase)])))

def hashValue (hash : Option ContentHash) : Value := (hash.map .string).getD .null

namespace Interleaving

variable {ws : Workspace} (moments : Interleaving ws)

def world : Nat → World
  | 0 => (moments.between 0).foldl (fun world action => ws.act action world) moments.start
  | n + 1 =>
    (moments.between (n + 1)).foldl (fun world action => ws.act action world) (world n)

def index (n : Nat) : CodeIndex := (moments.world n).state.shared.index

def file (relative : Text) (n : Nat) : Option FileEntry := (moments.index n).get relative

def hash (relative : Text) (n : Nat) : Option ContentHash :=
  (moments.file relative n).map FileEntry.hash

def snapshotId (n : Nat) : SnapshotId := (moments.world n).state.shared.snapshotId

def readText (relative : Text) (maxBytes n : Nat) : AppResult (Option Text) := do
  let path ← RelPath.new relative
  let file ← (moments.world n).disk.readFile (moments.faults n) path maxBytes
  .ok (file.bind fun file => fromUtf8 file.bytes)

-- The first look is at the index, the second at the disk.
def openSession (relative : Text) : AppResult Session :=
  match moments.file relative 0 with
  | none => .error (stale "before_request"
      "Code-intelligence target is not present in the confined live index"
      [("path", .string relative)])
  | some indexed => do
    let text ← moments.readText relative (utf8Count indexed.content + 1) 1
    let diskHash := text.map ws.contentHash
    if diskHash ≠ some indexed.hash then
      .error (stale "before_request"
        "Code-intelligence target no longer matches the confined live index"
        [("path", .string relative), ("indexed_hash", .string indexed.hash),
          ("disk_hash", hashValue diskHash)])
    else .ok ⟨relative, indexed.content, indexed.hash⟩

-- The third look is at the disk, the fourth at the index.
def verifyAfterRequest (session : Session) (synchronizedHash : ContentHash) : AppResult Unit := do
  let text ← moments.readText session.relative (utf8Count session.content + 1) 2
  let diskHash := text.map ws.contentHash
  let indexedHash := moments.hash session.relative 3
  if synchronizedHash = session.hash ∧ diskHash = some synchronizedHash ∧
      indexedHash = some synchronizedHash then .ok ()
  else
    .error (stale "after_request" "Target changed while the semantic request was running"
      [("path", .string session.relative), ("synchronized_hash", .string synchronizedHash),
        ("disk_hash", hashValue diskHash), ("indexed_hash", hashValue indexedHash)])

def readCurrent (relative : Text) (n : Nat) : AppResult Text := do
  match ← moments.readText relative maxResultFileBytes n with
  | none => .error (.withDetails .invalidLspResponse
      "LSP result does not name a readable regular workspace file"
      (.json (json [("path", .string relative)])))
  | some text =>
    match moments.hash relative (n + 1) with
    | none => .ok text
    | some indexedHash =>
      if ws.contentHash text ≠ indexedHash then
        .error (stale "result_file"
          "A file named in the semantic result no longer matches the live index"
          [("path", .string relative), ("indexed_hash", .string indexedHash),
            ("disk_hash", .string (ws.contentHash text))])
      else .ok text

def content (files : ResultFiles) (relative : Text) : AppResult (ReadFile × ResultFiles) :=
  match files.contents.lookup relative with
  | some file => .ok (file, files)
  | none => do
    let text ← moments.readCurrent relative files.clock
    let file : ReadFile := ⟨text, files.clock⟩
    .ok (file, ⟨files.clock + 2, files.contents.insert relative file⟩)

def semantic {A : Type} (codec : UriCodec) (session : Session) (backend : SemanticBackend ws)
    (operation : WorkerOperation) (interpret : WorkerResponse → ResultFiles → AppResult A) :
    AppResult (A × WorkerResponse) := do
  let document := DocumentSnapshot.new ws.contentHash (codec.documentUri session.relative)
    backend.languageId session.content
  let response ← (backend.execute operation document).mapError WorkerError.toAppError
  moments.verifyAfterRequest session response.synchronized.hash
  let value ← interpret response ⟨4, ∅⟩
  .ok (value, response)

theorem run_world (n : Nat) : ∃ actions, Run ws.Step moments.start actions (moments.world n) := by
  induction n with
  | zero => exact ⟨_, ws.run_foldl_act _ _⟩
  | succ n ih =>
    obtain ⟨actions, run⟩ := ih
    exact ⟨_, run.trans (ws.run_foldl_act _ _)⟩

theorem hash_file {relative : Text} {n : Nat} {entry : FileEntry}
    (found : moments.file relative n = some entry) : entry.hash = ws.contentHash entry.content := by
  obtain ⟨actions, run⟩ := moments.run_world n
  exact hashed_reached moments.opened run _ _ found

/-- A text read from the disk at one moment, and of the hash the index has for its path
at the next, where it has one. -/
structure Current (relative : Text) (file : ReadFile) : Prop where
  read : moments.readText relative maxResultFileBytes file.moment = .ok (some file.text)
  checked : ∀ hash, moments.hash relative (file.moment + 1) = some hash →
    hash = ws.contentHash file.text

theorem current_of_readCurrent {relative text : Text} {n : Nat}
    (h : moments.readCurrent relative n = .ok text) : moments.Current relative ⟨text, n⟩ := by
  simp only [readCurrent, bind, Except.bind] at h
  split at h
  · cases h
  · next read found =>
    split at h
    · cases h
    · split at h
      · next absent =>
        cases h
        refine ⟨found, fun hash indexed => ?_⟩
        rw [absent] at indexed
        cases indexed
      · next hash' indexed' =>
        split at h
        · cases h
        · next same =>
          cases h
          refine ⟨found, fun hash indexed => ?_⟩
          rw [indexed'] at indexed
          cases indexed
          exact (not_not.mp same).symm

structure Reads (files later : ResultFiles) : Prop where
  kept : ∀ path file, files.contents.lookup path = some file →
    later.contents.lookup path = some file
  current : (∀ path file, files.contents.lookup path = some file → moments.Current path file) →
    ∀ path file, later.contents.lookup path = some file → moments.Current path file

variable {moments}

theorem Reads.refl (files : ResultFiles) : moments.Reads files files :=
  ⟨fun _ _ found => found, fun current => current⟩

theorem Reads.trans {files later last : ResultFiles} (first : moments.Reads files later)
    (second : moments.Reads later last) : moments.Reads files last :=
  ⟨fun path file found => second.kept path file (first.kept path file found),
    fun current => second.current (first.current current)⟩

theorem content_reads {files later : ResultFiles} {relative : Text} {file : ReadFile}
    (h : moments.content files relative = .ok (file, later)) :
    moments.Reads files later ∧ later.contents.lookup relative = some file := by
  rw [content] at h
  split at h
  · next found =>
    cases h
    exact ⟨.refl files, found⟩
  · next absent =>
    cases read : moments.readCurrent relative files.clock with
    | error error =>
      rw [read] at h
      cases h
    | ok text =>
      rw [read] at h
      cases h
      refine ⟨⟨fun path file found => ?_, fun current path file found => ?_⟩,
        AList.lookup_insert _⟩
      · have other : path ≠ relative := by
          rintro rfl
          rw [absent] at found
          cases found
        rw [AList.lookup_insert_ne other]
        exact found
      · by_cases same : path = relative
        · subst same
          rw [AList.lookup_insert] at found
          cases found
          exact moments.current_of_readCurrent read
        · rw [AList.lookup_insert_ne same] at found
          exact current path file found

end Interleaving

end CodeWeave
