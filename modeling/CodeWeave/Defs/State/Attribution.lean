import CodeWeave.Defs.State.Ledger
import Mathlib.Data.Finset.SymmDiff

namespace CodeWeave

/-- When the directories of a disk, and what its links lead to, were modified. -/
abbrev StatTimes := List Text → Option Timestamp

-- `WorkspaceRoot::modified` follows links. Of a missing path there is no time.
def Disk.modified (disk : Disk) (times : StatTimes) (path : RelPath) : Option Timestamp :=
  match disk.node path.components with
  | some (.file _ modifiedNs) => some modifiedNs
  | some .dir | some (.link _ _) => times path.components
  | none => none

def Disk.modifiedByEnd (disk : Disk) (times : StatTimes) (path : Text) (ended : Timestamp) : Bool :=
  match RelPath.new path with
  | .ok path => (disk.modified times path).any fun modified => modified ≤ ended
  | .error _ => false

/-- The window a Bash run's changed-path attribution covers.  `endedAt` is set once
the run is terminal. -/
structure RunWindow where
  startGeneration : Nat
  endGeneration : Nat
  endedAt : Option Timestamp
  baselineDirty : Finset Text
  currentDirty : Finset Text
  deriving DecidableEq

def RunWindow.Covers (window : RunWindow) (record : MutationRecord) : Prop :=
  window.startGeneration < record.generation ∧ record.generation ≤ window.endGeneration

instance (window : RunWindow) (record : MutationRecord) : Decidable (window.Covers record) :=
  inferInstanceAs (Decidable (_ ∧ _))

-- `is_ignored` of a path that is not absolute, as the ledger's are.
def Workspace.isIgnoredRelative (ws : Workspace) (path : Text) (isDir : Bool) : Bool :=
  ignoredWorkspacePath (normalizePathText path) || ws.matcher (normalizePathText path) isDir

namespace ChangeLedger

variable (ws : Workspace) (disk : Disk) (times : StatTimes)

def mutationPaths (ledger : ChangeLedger) (window : RunWindow) : Finset Text :=
  let candidates := (ledger.events.filter fun mutation => window.Covers mutation).map
    fun mutation => (mutation.path, mutation.timestamp)
  ((candidates.filter fun (path, timestamp) =>
    window.endedAt.all fun ended =>
      timestamp ≤ ended || disk.modifiedByEnd times path ended).map Prod.fst).toFinset

def attributeSince (ledger : ChangeLedger) (window : RunWindow) : Finset Text :=
  let mutationPaths := ledger.mutationPaths disk times window
  let paths := (symmDiff window.currentDirty window.baselineDirty).filter fun path =>
    path ∈ mutationPaths ∨
      window.endedAt.all (fun ended => disk.modifiedByEnd times path ended) = true
  (paths ∪ mutationPaths).filter fun path => ws.isIgnoredRelative path false = false

variable {disk times}

theorem mem_mutationPaths {ledger : ChangeLedger} {window : RunWindow} {path : Text} :
    path ∈ ledger.mutationPaths disk times window ↔
      ∃ record ∈ ledger.events, window.Covers record ∧ record.path = path ∧
        ∀ ended, window.endedAt = some ended →
          record.timestamp ≤ ended ∨ disk.modifiedByEnd times path ended = true := by
  simp only [mutationPaths, List.mem_toFinset, List.mem_map, List.mem_filter, Prod.exists,
    Option.all_eq_true, Bool.or_eq_true, decide_eq_true_eq, exists_and_right, exists_eq_right,
    Prod.mk.injEq]
  constructor
  · rintro ⟨timestamp, ⟨record, ⟨logged, covered⟩, rfl, rfl⟩, dated⟩
    exact ⟨record, logged, covered, rfl, dated⟩
  · rintro ⟨record, logged, covered, rfl, dated⟩
    exact ⟨record.timestamp, ⟨record, ⟨logged, covered⟩, rfl, rfl⟩, dated⟩

theorem mem_attributeSince {ledger : ChangeLedger} {window : RunWindow} {path : Text} :
    path ∈ ledger.attributeSince ws disk times window ↔
      ws.isIgnoredRelative path false = false ∧
        (path ∈ ledger.mutationPaths disk times window ∨
          path ∈ symmDiff window.currentDirty window.baselineDirty ∧
            ∀ ended, window.endedAt = some ended → disk.modifiedByEnd times path ended = true) := by
  simp only [attributeSince, Finset.mem_filter, Finset.mem_union, Option.all_eq_true]
  tauto

theorem recorded_mem_attributeSince_iff {ledger : ChangeLedger} {window : RunWindow}
    {path : Text} {ended : Timestamp} (terminal : window.endedAt = some ended)
    (recorded : ∃ record ∈ ledger.events, window.Covers record ∧ record.path = path)
    (kept : ws.isIgnoredRelative path false = false) :
    path ∈ ledger.attributeSince ws disk times window ↔
      (∃ record ∈ ledger.events, window.Covers record ∧ record.path = path ∧
        record.timestamp ≤ ended) ∨ disk.modifiedByEnd times path ended = true := by
  simp only [mem_attributeSince, mem_mutationPaths, terminal, Option.some.injEq, forall_eq', kept,
    true_and]
  by_cases modified : disk.modifiedByEnd times path ended = true
  · simp only [modified, or_true, and_true, iff_true]
    exact .inl recorded
  · simp only [modified, Bool.false_eq_true, or_false, and_false]

end ChangeLedger

end CodeWeave
