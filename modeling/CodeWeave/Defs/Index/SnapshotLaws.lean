import CodeWeave.Defs.Index.RefreshLaws
import CodeWeave.Lib.Overwrite
import Mathlib.Data.Finset.Card

namespace CodeWeave

open Tally

instance : Std.Commutative xorInto where
  comm first second := by
    ext i hi
    simp [xorInto, UInt8.xor_comm]

instance : Std.Associative xorInto where
  assoc first second third := by
    ext i hi
    simp [xorInto, UInt8.xor_assoc]

def noDigest : Digest := Vector.replicate 32 0

namespace CodeIndex

def paths (index : CodeIndex) : Finset Text := index.files.keys.toFinset

def weight (ws : Workspace) (index : CodeIndex) (path : Text) : Digest :=
  match index.lookup path with
  | some entry => fileDigest ws entry
  | none => noDigest

def Tallied (ws : Workspace) (index : CodeIndex) : Prop :=
  index.snapshotAcc = total xorInto noDigest index.paths (index.weight ws)

theorem mem_paths {index : CodeIndex} {path : Text} :
    path ∈ index.paths ↔ (index.lookup path).isSome := by
  rw [paths, List.mem_toFinset, mem_keys_iff]

variable (ws : Workspace)

theorem tallied_empty : Tallied ws .empty := rfl

theorem paths_remove (index : CodeIndex) (path : Text) :
    (index.remove ws path).2.paths = index.paths.erase path := by
  ext key
  rw [mem_paths, lookup_remove, Finset.mem_erase, mem_paths]
  by_cases same : key = path
  · simp [same]
  · simp [same]

theorem paths_insert (index : CodeIndex) (entry : FileEntry) :
    (index.insert ws entry).paths = Insert.insert entry.path (index.paths.erase entry.path) := by
  ext key
  rw [mem_paths, lookup_insert, Finset.mem_insert, Finset.mem_erase, mem_paths]
  by_cases same : key = entry.path
  · simp [same]
  · simp [same]

theorem weight_remove {index : CodeIndex} {path key : Text} (other : key ≠ path) :
    (index.remove ws path).2.weight ws key = index.weight ws key := by
  rw [weight, lookup_remove, if_neg other, weight]

variable {ws}

theorem Tallied.remove {index : CodeIndex} (tallied : Tallied ws index) (path : Text) :
    Tallied ws (index.remove ws path).2 := by
  have rest : total xorInto noDigest (index.paths.erase path) ((index.remove ws path).2.weight ws) =
      total xorInto noDigest (index.paths.erase path) (index.weight ws) :=
    total_congr xorInto noDigest fun key mem => weight_remove ws (Finset.ne_of_mem_erase mem)
  rw [Tallied, paths_remove, rest]
  cases found : index.files.lookup path with
  | none =>
    have absent : path ∉ index.paths := by
      rw [mem_paths, lookup, found]
      exact Bool.false_ne_true
    rw [Finset.erase_eq_of_notMem absent, CodeIndex.remove]
    split
    · exact tallied
    · next eq => rw [found] at eq; cases eq
  | some removed =>
    have present : path ∈ index.paths := by rw [mem_paths, lookup, found]; rfl
    have own : index.weight ws path = fileDigest ws removed := by rw [weight, lookup, found]
    rw [total_erase xorInto noDigest xorInto_xorInto_self present, own, ← tallied, CodeIndex.remove]
    split
    · next eq => rw [found] at eq; cases eq
    · next other eq => rw [found] at eq; cases eq; rfl

theorem Tallied.insert {index : CodeIndex} (tallied : Tallied ws index) (entry : FileEntry) :
    Tallied ws (index.insert ws entry) := by
  have removed := tallied.remove entry.path
  have rest : total xorInto noDigest (index.paths.erase entry.path)
      ((index.insert ws entry).weight ws) =
      total xorInto noDigest (index.paths.erase entry.path)
        ((index.remove ws entry.path).2.weight ws) := by
    apply total_congr
    intro key mem
    have other := Finset.ne_of_mem_erase mem
    rw [weight_remove ws other, weight, lookup_insert, if_neg other, weight]
  have own : (index.insert ws entry).weight ws entry.path = fileDigest ws entry := by
    rw [weight, lookup_insert, if_pos rfl]
  rw [Tallied, paths_remove] at removed
  rw [Tallied, paths_insert, total_insert xorInto noDigest (Finset.notMem_erase _ _), rest, own,
    ← removed]
  rfl

theorem Tallied.removeTree {index : CodeIndex} (tallied : Tallied ws index) (path : Text) :
    Tallied ws (index.removeTree ws path).2 := by
  rw [CodeIndex.removeTree]
  generalize index.files.keys.filter (fun candidate => AtOrBelow path candidate) = removed
  induction removed generalizing index with
  | nil => exact tallied
  | cons key rest ih => exact ih (tallied.remove key)

theorem paths_congr {first second : CodeIndex} (same : second.hashAt = first.hashAt) :
    second.paths = first.paths := by
  ext path
  rw [mem_paths, mem_paths, ← Option.isSome_map (f := FileEntry.hash),
    ← Option.isSome_map (f := FileEntry.hash)]
  exact iff_of_eq (congrArg (fun hash => hash.isSome = true) (congrFun same path))

theorem weight_congr {first second : CodeIndex} (same : second.hashAt = first.hashAt) :
    second.weight ws = first.weight ws := by
  funext path
  have hash := congrFun same path
  rw [hashAt, hashAt] at hash
  rw [weight, weight]
  cases inFirst : first.lookup path with
  | none =>
    rw [inFirst] at hash
    rw [Option.map_eq_none_iff.mp hash]
  | some old =>
    rw [inFirst] at hash
    obtain ⟨new, inSecond, hashes⟩ := Option.map_eq_some_iff.mp hash
    rw [inSecond]
    simp only [fileDigest, first.keyed path old inFirst, second.keyed path new inSecond, hashes]

theorem fileCount_eq (index : CodeIndex) : index.fileCount = index.paths.card := by
  rw [fileCount, paths, List.toFinset_card_of_nodup index.files.keys_nodup]

theorem snapshotId_of_hashAt {first second : CodeIndex} (tallied : Tallied ws first)
    (tallied' : Tallied ws second) (same : second.hashAt = first.hashAt) (head : Text) :
    second.snapshotId ws head = first.snapshotId ws head := by
  refine snapshotId_congr ws ?_ ?_ head
  · rw [fileCount_eq, fileCount_eq, paths_congr same]
  · rw [tallied, tallied', paths_congr same, weight_congr same]

end CodeIndex

theorem Effect.tallied {ws : Workspace} {index : CodeIndex} (tallied : index.Tallied ws)
    (effect : Effect) : (effect.run ws index).Tallied ws := by
  cases effect with
  | skip => exact tallied
  | removeTree path => exact tallied.removeTree path
  | insert entry => exact tallied.insert entry

theorem Workspace.tallied_refreshedIndex (ws : Workspace) (disk : Disk) (faults : ReadFaults)
    (paths : List PathBuf) {index : CodeIndex} (tallied : index.Tallied ws) :
    (ws.refreshedIndex disk faults paths index).Tallied ws := by
  rw [refreshedIndex]
  generalize ws.refreshed disk faults paths = refreshed
  induction refreshed generalizing index with
  | nil => exact tallied
  | cons path rest ih => exact ih (Effect.tallied tallied _)

section

variable {ws : Workspace} {disk : Disk} {cache : SymbolCache} {index scanned : CodeIndex}

theorem Workspace.tallied_scanDirectory {faults : ReadFaults} {scanRoot : List Text}
    {respectIgnores : Bool} (tallied : index.Tallied ws)
    (ok : ws.scanDirectory disk faults scanRoot respectIgnores cache index = .ok scanned) :
    scanned.Tallied ws := by
  rw [scanDirectory] at ok
  split at ok
  · cases ok
  · next entries _ =>
    cases ok
    induction entries.reduceOption generalizing index with
    | nil => exact tallied
    | cons entry rest ih => exact ih (tallied.insert entry)

theorem Workspace.tallied_scanArtifacts {io : ScanIo} {texts : List Text}
    (tallied : index.Tallied ws)
    (ok : ws.scanArtifacts disk io cache texts index = .ok scanned) : scanned.Tallied ws := by
  induction texts generalizing index with
  | nil => cases ok; exact tallied
  | cons text rest ih =>
    rw [scanArtifacts] at ok
    split at ok
    · cases ok
    · split at ok
      · exact ih tallied ok
      · cases ok
      · cases ok
      · split at ok
        · cases ok
        · next walk => exact ih (tallied_scanDirectory tallied walk) ok

theorem Workspace.tallied_scanWorkspace {io : ScanIo}
    (ok : ws.scanWorkspace disk io cache = .ok scanned) : scanned.Tallied ws := by
  rw [scanWorkspace] at ok
  split at ok
  · cases ok
  · next walk => exact tallied_scanArtifacts (tallied_scanDirectory (CodeIndex.tallied_empty ws) walk) ok

end

end CodeWeave
