import CodeWeave.Defs.State.Attribution
import CodeWeave.Defs.Workspace.System

namespace CodeWeave

/-- One change to one path of a disk: what it leaves there, or nothing where it
removes the path.  A file it leaves was last written by then. -/
structure Touch where
  time : Timestamp
  path : List Text
  left : Option Node
  below : path ≠ []
  written : ∀ bytes modifiedNs, left = some (.file bytes modifiedNs) → modifiedNs ≤ time

/-- What the touch leaves is still dated by the end: a file always is, and a removed
path never. -/
def Touch.DatedBy (touch : Touch) (times : StatTimes) (ended : Timestamp) : Prop :=
  match touch.left with
  | some (.file _ _) => True
  | some .dir | some (.link _ _) => ∃ modified, times touch.path = some modified ∧ modified ≤ ended
  | none => False

def LastTouch (history : List Touch) (path : List Text) (touch : Touch) : Prop :=
  touch.path = path ∧ ∃ earlier later, history = earlier ++ touch :: later ∧
    ∀ other ∈ later, other.path ≠ path

namespace Disk

def touched (disk : Disk) (touch : Touch) : Disk :=
  match touch.left with
  | some node => disk.setNode touch.path node
  | none => ⟨disk.nodes.erase touch.path⟩

def after (disk : Disk) (history : List Touch) : Disk := history.foldl touched disk

theorem node_touched (disk : Disk) (touch : Touch) (path : List Text) :
    (disk.touched touch).node path = if path = touch.path then touch.left else disk.node path := by
  have below := touch.below
  unfold touched
  by_cases same : path = touch.path
  · subst same
    cases left : touch.left with
    | some node => simp [node_setNode, below]
    | none => simp [node_of_ne, below]
  · cases left : touch.left with
    | some node => simp [node_setNode, same]
    | none =>
      cases path with
      | nil => simp [same]
      | cons name rest => simp [node, same, AList.lookup_erase_ne same]

theorem node_after_of_untouched (disk : Disk) {history : List Touch} {path : List Text}
    (untouched : ∀ other ∈ history, other.path ≠ path) :
    (disk.after history).node path = disk.node path := by
  unfold after
  induction history generalizing disk with
  | nil => rfl
  | cons touch rest ih =>
    have other := untouched touch List.mem_cons_self
    rw [List.foldl_cons, ih _ fun later mem => untouched later (List.mem_cons_of_mem _ mem),
      node_touched, if_neg other.symm]

theorem node_after (disk : Disk) {history : List Touch} {path : List Text} {touch : Touch}
    (last : LastTouch history path touch) : (disk.after history).node path = touch.left := by
  obtain ⟨here, earlier, later, rfl, untouched⟩ := last
  have parts : disk.after (earlier ++ touch :: later) =
      ((disk.after earlier).touched touch).after later := by
    simp only [after, List.foldl_append, List.foldl_cons]
  rw [parts, node_after_of_untouched _ untouched, node_touched, if_pos here.symm]

theorem modifiedByEnd_after (disk : Disk) (times : StatTimes) {history : List Touch}
    {path : RelPath} {touch : Touch} {ended : Timestamp}
    (last : LastTouch history path.components touch) (byEnd : touch.time ≤ ended) :
    (disk.after history).modifiedByEnd times path.text ended = true ↔
      touch.DatedBy times ended := by
  have here := last.1
  simp only [modifiedByEnd, RelPath.new_self, modified, disk.node_after last, Touch.DatedBy]
  cases left : touch.left with
  | none => simp
  | some node =>
    cases node with
    | file bytes modifiedNs => simpa using (touch.written bytes modifiedNs left).trans byEnd
    | dir => simp [here, Option.any_eq_true]
    | link isDir text => simp [here, Option.any_eq_true]

end Disk

/-- A recorded change that a run made before it ended, and that nothing came after, is
attributed to the run where it was also recorded by then, or where it left something
dated by then. -/
theorem late_change_attributed_iff (ws : Workspace) (times : StatTimes) (disk : Disk)
    (ledger : ChangeLedger) (window : RunWindow) (ended : Timestamp) (history : List Touch)
    (path : RelPath) (touch : Touch) (terminal : window.endedAt = some ended)
    (last : LastTouch history path.components touch) (byEnd : touch.time ≤ ended)
    (recorded : ∃ record ∈ ledger.events, window.Covers record ∧ record.path = path.text)
    (kept : ws.isIgnoredRelative path.text false = false) :
    path.text ∈ ledger.attributeSince ws (disk.after history) times window ↔
      (∃ record ∈ ledger.events, window.Covers record ∧ record.path = path.text ∧
        record.timestamp ≤ ended) ∨ touch.DatedBy times ended := by
  rw [ledger.recorded_mem_attributeSince_iff ws terminal recorded kept,
    disk.modifiedByEnd_after times last byEnd]

namespace Sample

def note : RelPath := ⟨"note".toList, by decide, by decide, by decide⟩

def noteDisk : Disk := .holding [(note.components, "old".toList)]

def runWindow : RunWindow := ⟨1, 2, some 6, ∅, ∅⟩

def overwriting : Touch where
  time := 5
  path := note.components
  left := some (.file (Text.bytes "new".toList) 5)
  below := by decide
  written := by
    intro bytes modifiedNs same
    simp only [Option.some.injEq, Node.file.injEq] at same
    exact same.2.symm.le

def deleting : Touch := ⟨5, note.components, none, by decide, nofun⟩

def foundLate (touch : Touch) : List Action :=
  [.disk (noteDisk.after [touch]), .observe [note.join],
    .reconcile { ReconcileIo.calm with now := 7, timestamp := 7 }]

def foundBy (touch : Touch) : World :=
  (foundLate touch).foldl (fun world action => Workspace.plain.act action world)
    (.opened .plain noteDisk)

theorem lastTouch_single (touch : Touch) : LastTouch [touch] touch.path touch :=
  ⟨rfl, [], [], rfl, nofun⟩

end Sample

open Sample in
theorem late_change_attributed_overwriting :
    note.text ∈ (foundBy overwriting).state.ledger.attributeSince .plain
      (noteDisk.after [overwriting]) (fun _ => none) runWindow :=
  (late_change_attributed_iff .plain (fun _ => none) noteDisk _ runWindow 6 [overwriting] note
    overwriting rfl (lastTouch_single overwriting) (by decide) (by decide +kernel)
    (by decide)).mpr (.inr trivial)

open Sample in
theorem late_deletion_lost :
    Runs.Run Workspace.plain.Step (.opened .plain noteDisk) (foundLate deleting)
        (foundBy deleting) ∧
      runWindow.endedAt = some 6 ∧ LastTouch [deleting] note.components deleting ∧
      deleting.time ≤ 6 ∧
      (∃ record ∈ (foundBy deleting).state.ledger.events, runWindow.Covers record ∧
        record.path = note.text) ∧
      Workspace.plain.isIgnoredRelative note.text false = false ∧
      note.text ∉ (foundBy deleting).state.ledger.attributeSince .plain
        (noteDisk.after [deleting]) (fun _ => none) runWindow := by
  refine ⟨?_, rfl, lastTouch_single deleting, by decide, by decide +kernel, by decide,
    by decide +kernel⟩
  exact .snoc (.snoc (.snoc (.nil _) rfl) rfl) rfl

end CodeWeave
