import CodeWeave.Defs.Workspace.Config
import Mathlib.Data.Finset.Insert
import Mathlib.Data.Finset.Filter

namespace CodeWeave

structure FileEntry where
  path : Text
  content : Text
  hash : ContentHash
  symbols : List Symbol
  size : Nat
  modifiedNs : Nat
  deriving DecidableEq

abbrev Postings := Table Text (Finset (Text × Nat))

def xorInto (acc contribution : Digest) : Digest :=
  acc.zipWith (fun slot byte => slot ^^^ byte) contribution

theorem xorInto_xorInto_self (acc d : Digest) : xorInto (xorInto acc d) d = acc := by
  ext i hi
  simp only [xorInto, Vector.getElem_zipWith, UInt8.xor_assoc, UInt8.xor_self, UInt8.xor_zero]

def fileDigest (ws : Workspace) (file : FileEntry) : Digest :=
  ws.sha256 (file.path.bytes ++ ⟨#[0]⟩ ++ file.hash.bytes ++ ⟨#[0]⟩)

/-- The in-memory index. Every entry is kept under its own path. -/
structure CodeIndex where
  files : Table Text FileEntry
  symbolIndex : Postings
  snapshotAcc : Digest
  keyed : ∀ path entry, files.lookup path = some entry → entry.path = path

/-- A path is at `top` or below it, by its text: what `remove_tree` removes. -/
def AtOrBelow (top path : Text) : Prop := path = top ∨ top ++ ['/'] <+: path

instance (top path : Text) : Decidable (AtOrBelow top path) :=
  inferInstanceAs (Decidable (_ ∨ _))

namespace CodeIndex

def empty : CodeIndex where
  files := ∅
  symbolIndex := ∅
  snapshotAcc := Vector.replicate 32 0
  keyed := by simp

def lookup (index : CodeIndex) (path : Text) : Option FileEntry := index.files.lookup path

def hashAt (index : CodeIndex) (path : Text) : Option ContentHash :=
  (index.lookup path).map FileEntry.hash

def get (index : CodeIndex) (path : Text) : Option FileEntry :=
  index.files.lookup (normalizePathText path)

def fileCount (index : CodeIndex) : Nat := index.files.keys.length

def unlistSymbols (removed : FileEntry) (symbolIndex : Postings) :
    Postings :=
  (removed.symbols.map Symbol.name).dedup.foldl
    (fun symbolIndex name =>
      match symbolIndex.lookup name with
      | none => symbolIndex
      | some entries =>
        let kept := entries.filter fun entry => entry.1 ≠ removed.path
        if kept = ∅ then symbolIndex.erase name else symbolIndex.replace name kept)
    symbolIndex

def listSymbols (entry : FileEntry) (symbolIndex : Postings) :
    Postings :=
  entry.symbols.zipIdx.foldl
    (fun symbolIndex (symbol, position) =>
      let entries := (symbolIndex.lookup symbol.name).getD ∅
      symbolIndex.insert symbol.name (Insert.insert (entry.path, position) entries))
    symbolIndex

def remove (ws : Workspace) (index : CodeIndex) (path : Text) : Option FileEntry × CodeIndex :=
  match index.files.lookup path with
  | none => (none, index)
  | some removed =>
    (some removed,
      { files := index.files.erase path
        symbolIndex := unlistSymbols removed index.symbolIndex
        snapshotAcc := xorInto index.snapshotAcc (fileDigest ws removed)
        keyed := by
          intro key entry found
          by_cases same : key = path
          · subst same; simp at found
          · rw [AList.lookup_erase_ne same] at found
            exact index.keyed key entry found })

def insert (ws : Workspace) (index : CodeIndex) (entry : FileEntry) : CodeIndex :=
  let index := (index.remove ws entry.path).2
  { files := index.files.insert entry.path entry
    symbolIndex := listSymbols entry index.symbolIndex
    snapshotAcc := xorInto index.snapshotAcc (fileDigest ws entry)
    keyed := by
      intro key other found
      by_cases same : key = entry.path
      · subst same; simp at found; rw [← found]
      · rw [AList.lookup_insert_ne same] at found
        exact index.keyed key other found }

def removeTree (ws : Workspace) (index : CodeIndex) (path : Text) : List Text × CodeIndex :=
  let removed := index.files.keys.filter fun candidate => AtOrBelow path candidate
  (removed, removed.foldl (fun index path => (index.remove ws path).2) index)

def hexDigit (n : UInt8) : Char :=
  ("0123456789abcdef".toList).getD n.toNat '0'

def hex (digest : Digest) : Text :=
  digest.toList.flatMap fun (byte : UInt8) => [hexDigit (byte >>> 4), hexDigit (byte &&& 0x0f)]

def littleEndian (n : Nat) : ByteArray :=
  ⟨((List.range 8).map fun i => UInt8.ofNat (n >>> (8 * i))).toArray⟩

def snapshotId (ws : Workspace) (index : CodeIndex) (head : Text) : SnapshotId :=
  "snap_".toList ++ hex (ws.sha256 (Text.bytes "codeweave-index".toList ++ ⟨#[0]⟩ ++ head.bytes ++ ⟨#[0]⟩
    ++ littleEndian index.fileCount ++ ⟨index.snapshotAcc.toArray⟩))

variable (ws : Workspace)

theorem lookup_remove (index : CodeIndex) (path key : Text) :
    (index.remove ws path).2.lookup key = if key = path then none else index.lookup key := by
  unfold remove lookup
  split
  · next absent =>
    by_cases same : key = path
    · subst same; simp [absent]
    · simp [same]
  · by_cases same : key = path
    · subst same; simp
    · simp [same, AList.lookup_erase_ne same]

theorem lookup_insert (index : CodeIndex) (entry : FileEntry) (key : Text) :
    (index.insert ws entry).lookup key = if key = entry.path then some entry else index.lookup key := by
  by_cases same : key = entry.path
  · subst same; simp [insert, lookup]
  · have := lookup_remove ws index entry.path key
    simp only [insert, lookup, AList.lookup_insert_ne same, if_neg same] at this ⊢
    exact this

theorem lookup_foldl_remove (paths : List Text) (index : CodeIndex) (key : Text) :
    (paths.foldl (fun index path => (index.remove ws path).2) index).lookup key =
      if key ∈ paths then none else index.lookup key := by
  induction paths generalizing index with
  | nil => simp
  | cons path rest ih =>
    rw [List.foldl_cons, ih, lookup_remove]
    by_cases later : key ∈ rest
    · simp [later]
    · simp [later]

theorem mem_keys_iff (index : CodeIndex) (key : Text) :
    key ∈ index.files.keys ↔ (index.lookup key).isSome := by
  rw [lookup, AList.lookup_isSome, AList.mem_keys]

theorem lookup_removeTree (index : CodeIndex) (path key : Text) :
    (index.removeTree ws path).2.lookup key =
      if AtOrBelow path key then none else index.lookup key := by
  simp only [removeTree, lookup_foldl_remove, List.mem_filter, mem_keys_iff, decide_eq_true_eq]
  by_cases below : AtOrBelow path key
  · cases found : index.lookup key <;> simp [below]
  · simp [below]

theorem snapshotId_congr {index index' : CodeIndex} (count : index'.fileCount = index.fileCount)
    (acc : index'.snapshotAcc = index.snapshotAcc) (head : Text) :
    index'.snapshotId ws head = index.snapshotId ws head := by
  rw [snapshotId, snapshotId, count, acc]

end CodeIndex

end CodeWeave
