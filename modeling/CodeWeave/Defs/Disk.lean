import CodeWeave.Defs.Path
import Mathlib.Data.List.Infix

namespace CodeWeave

-- core's instance, of the several there are
local instance decidableEqBytes : DecidableEq ByteArray := ByteArray.instDecidableEq

/-- What a path below the root names. Of a link the model keeps only what the
code sees through it: whether it leads to a directory and what reading it gives. -/
inductive Node
  | file (bytes : ByteArray) (modifiedNs : Nat)
  | dir
  | link (isDir : Bool) (text : Except IoError (Option Text))
  deriving DecidableEq

structure Disk where
  nodes : Table (List Text) Node

abbrev ReadFaults := List Text → Option IoError

structure WorkspaceFile where
  bytes : ByteArray
  size : Nat
  modifiedNs : Nat

namespace Disk

def node (disk : Disk) : List Text → Option Node
  | [] => some .dir
  | components => disk.nodes.lookup components

def fileAt (disk : Disk) (components : List Text) : Option ByteArray :=
  match disk.node components with
  | some (.file bytes _) => some bytes
  | _ => none

-- `Path::is_dir` follows links.
def isDir (disk : Disk) : PathBuf → Bool
  | .below text =>
    match disk.node (segments text) with
    | some .dir => true
    | some (.link isDir _) => isDir
    | _ => false
  | .outside _ => false

def isRegularFile (disk : Disk) (path : RelPath) : Bool :=
  (disk.fileAt path.components).isSome

def readFile (disk : Disk) (faults : ReadFaults) (path : RelPath) (maxBytes : Nat) :
    AppResult (Option WorkspaceFile) :=
  match disk.node path.components with
  | some (.file bytes modifiedNs) =>
    match faults path.components with
    | some error => .error (.internal error)
    | none => if bytes.size > maxBytes then .ok none else .ok (some ⟨bytes, bytes.size, modifiedNs⟩)
  | _ => .ok none

def readToString (disk : Disk) (path : RelPath) : Except IoError (Option Text) :=
  match disk.node path.components with
  | some (.file bytes _) =>
    match fromUtf8 bytes with
    | some content => .ok (some content)
    | none => .error ⟨.other, "stream did not contain valid UTF-8"⟩
  | some .dir => .error ⟨.other, "Is a directory"⟩
  | some (.link _ text) => text
  | none => .ok none

def setNode (disk : Disk) (components : List Text) (node : Node) : Disk :=
  ⟨disk.nodes.insert components node⟩

def createDir (disk : Disk) (components : List Text) : Disk :=
  if disk.node components = none then disk.setNode components .dir else disk

-- The proper ancestors of the path, the root excepted, topmost first.
def ancestors (components : List Text) : List (List Text) := components.dropLast.inits.tail

def createDirAll (disk : Disk) (components : List Text) : Disk :=
  (ancestors components).foldl createDir disk

-- Whether the operating system carries out a write or a removal is an input; a
-- failed one leaves its target as it was.
def writeAtomic (disk : Disk) (fault : Option IoError) (path : RelPath) (content : Text)
    (modifiedNs : Nat) : Except IoError Disk :=
  match fault with
  | some error => .error error
  | none =>
    if path.components = [] then .error ⟨.other, "Is a directory"⟩
    else .ok ((disk.createDirAll path.components).setNode path.components
      (.file content.bytes modifiedNs))

def removeFile (disk : Disk) (fault : Option IoError) (path : RelPath) : Except IoError Disk :=
  match fault with
  | some error => .error error
  | none => .ok ⟨disk.nodes.erase path.components⟩

def holding (files : List (List Text × Text)) : Disk :=
  files.foldl (fun disk file =>
    (disk.createDirAll file.1).setNode file.1 (.file file.2.bytes 0)) ⟨∅⟩

@[simp] theorem node_nil (disk : Disk) : disk.node [] = some .dir := rfl

@[simp] theorem fileAt_nil (disk : Disk) : disk.fileAt [] = none := rfl

theorem node_of_ne {components : List Text} (disk : Disk) (h : components ≠ []) :
    disk.node components = disk.nodes.lookup components := by
  cases components with
  | nil => exact absurd rfl h
  | cons => rfl

theorem fileAt_eq_some {disk : Disk} {components : List Text} {bytes : ByteArray} :
    disk.fileAt components = some bytes ↔
      ∃ modifiedNs, disk.node components = some (.file bytes modifiedNs) := by
  unfold fileAt
  split
  · next b m eq => simp [eq]
  · next other =>
    constructor
    · simp
    · rintro ⟨m, eq⟩
      exact absurd eq (other bytes m)

theorem node_setNode (disk : Disk) (components : List Text) (node : Node) (at_ : List Text) :
    (disk.setNode components node).node at_ =
      if at_ = components ∧ at_ ≠ [] then some node else disk.node at_ := by
  cases at_ with
  | nil => simp
  | cons name rest =>
    simp only [Disk.node, setNode]
    by_cases h : name :: rest = components
    · subst h; simp
    · simp [h, AList.lookup_insert_ne h]

theorem fileAt_createDir (disk : Disk) (components at_ : List Text) :
    (disk.createDir components).fileAt at_ = disk.fileAt at_ := by
  unfold createDir
  split
  · next absent =>
    simp only [fileAt, node_setNode]
    by_cases same : at_ = components ∧ at_ ≠ []
    · rw [if_pos same, same.1, absent]
    · rw [if_neg same]
  · rfl

@[simp] theorem fileAt_createDirAll (disk : Disk) (components at_ : List Text) :
    (disk.createDirAll components).fileAt at_ = disk.fileAt at_ := by
  unfold createDirAll
  induction ancestors components generalizing disk with
  | nil => rfl
  | cons parent rest ih => rw [List.foldl_cons, ih, fileAt_createDir]

theorem fileAt_setNode_file (disk : Disk) {components : List Text} (h : components ≠ [])
    (bytes : ByteArray) (modifiedNs : Nat) (at_ : List Text) :
    (disk.setNode components (.file bytes modifiedNs)).fileAt at_ =
      if at_ = components then some bytes else disk.fileAt at_ := by
  simp only [fileAt, node_setNode]
  by_cases same : at_ = components
  · subst same; simp [h]
  · simp [same]

theorem fileAt_writeAtomic {disk disk' : Disk} {fault : Option IoError} {path : RelPath}
    {content : Text} {modifiedNs : Nat}
    (h : disk.writeAtomic fault path content modifiedNs = .ok disk') (at_ : List Text) :
    disk'.fileAt at_ = if at_ = path.components then some content.bytes else disk.fileAt at_ := by
  cases fault with
  | some error => cases h
  | none =>
    simp only [writeAtomic] at h
    split at h
    · cases h
    · next ne =>
      cases h
      rw [fileAt_setNode_file _ ne, fileAt_createDirAll]

theorem fileAt_removeFile {disk disk' : Disk} {fault : Option IoError} {path : RelPath}
    (h : disk.removeFile fault path = .ok disk') (at_ : List Text) :
    disk'.fileAt at_ = if at_ = path.components then none else disk.fileAt at_ := by
  cases fault with
  | some error => cases h
  | none =>
    cases h
    cases at_ with
    | nil => simp
    | cons name rest =>
      simp only [fileAt, node]
      by_cases same : name :: rest = path.components
      · rw [same, AList.lookup_erase]; simp
      · rw [AList.lookup_erase_ne same]; simp [same]

theorem node_createDirAll (disk : Disk) {components at_ : List Text}
    (below : ¬at_ <+: components) : (disk.createDirAll components).node at_ = disk.node at_ := by
  have other : ∀ parent ∈ ancestors components, at_ ≠ parent := by
    rintro parent mem rfl
    have prefixed := (List.mem_inits _ _).mp (List.mem_of_mem_tail mem)
    exact below (prefixed.trans (List.dropLast_prefix components))
  unfold createDirAll
  revert other
  induction ancestors components generalizing disk with
  | nil => exact fun _ => rfl
  | cons parent rest ih =>
    intro other
    rw [List.foldl_cons, ih _ fun later mem => other later (List.mem_cons_of_mem _ mem), createDir]
    split
    · rw [node_setNode, if_neg fun same => other parent List.mem_cons_self same.1]
    · rfl

theorem readToString_congr {disk disk' : Disk} {path : RelPath}
    (same : disk'.node path.components = disk.node path.components) :
    disk'.readToString path = disk.readToString path := by
  rw [readToString, readToString, same]

end Disk

end CodeWeave
