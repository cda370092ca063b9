import CodeWeave.Defs.Workspace.DiffPages
import CodeWeave.Defs.Workspace.Stamps

/-! What a continuation means when it is presented: the snapshot id it carries stands for
the indexed contents and HEAD, and the hunks its scope selects are made from the disk and from
what `git` has stored. -/

namespace CodeWeave

open Runs

/-- The `git` executable. What it prints is made from its own data (its index, HEAD and its
configuration) and the disk. -/
structure Git where
  Data : Type
  repository : Data → Disk → Repository

structure DiffWorld (git : Git) where
  world : World
  data : git.Data

namespace DiffWorld

variable {git : Git} (ws : Workspace) (policy : GitPolicy) (s : DiffWorld git)

def shared : Reconciled := s.world.state.shared

def snapshotId : SnapshotId := s.shared.snapshotId

def head : Text := s.shared.repoStatus.head

def repository : Repository := git.repository s.data s.world.disk

def selection (scope : GitDiffScope) : AppResult (List DiffHunk) :=
  ws.selectedHunks s.repository s.world (some policy.maxContextChars) scope

def gitDiff (request : GitDiffRequest) : AppResult GitDiffPage :=
  ws.gitDiff policy s.repository s.world request

def next (event : Action × git.Data) : DiffWorld git := ⟨ws.act event.1 s.world, event.2⟩

def Step (event : Action × git.Data) (t : DiffWorld git) : Prop := t = s.next ws event

end DiffWorld

/-- What `git` sees at a path: a file without its times, or a link. -/
def Disk.seen (disk : Disk) (components : List Text) : Option Node :=
  match disk.node components with
  | some (.file bytes _) => some (.file bytes 0)
  | some (.link isDir text) => some (.link isDir text)
  | _ => none

/-- What the diff of a scope is made from: a part of what `git` has stored, and the files at
some paths. -/
structure View (git : Git) (scope : GitDiffScope) where
  Part : Type
  part : git.Data → Part
  covers : List Text → Prop
  determines : ∀ {data data' : git.Data} {disk disk' : Disk}, part data' = part data →
    (∀ components, covers components → disk'.seen components = disk.seen components) →
    ∀ (ws : Workspace) (paths : List RelPath) (budget : Budget),
      validatePaths scope.paths = .ok paths →
        (git.repository data' disk').diff disk' ws scope.staged paths budget =
          (git.repository data disk).diff disk ws scope.staged paths budget

def InStepAt (world : World) (components : List Text) : Prop :=
  world.disk.seen components = (world.state.shared.index.lookup (joinSegments components)).map
    fun entry => .file entry.content.bytes 0

/-- The files an action may change on disk. -/
def Action.Touches (world : World) (components : List Text) : Action → Prop
  | .disk after | .git (.restore (.ok after) _ _) =>
    after.seen components ≠ world.disk.seen components
  | .commit _ plan _ => ∃ item ∈ plan, item.path.components = components
  | _ => False

/-- A step under a continuation: of the files the scope's diff is made from it changes only
such as the code index was in step with, and it changes what `git` has stored for the scope
only together with HEAD, which comes back with nothing but what was stored with it. -/
structure KeepsDiff {git : Git} {scope : GitDiffScope} (ws : Workspace) (view : View git scope)
    (issued s : DiffWorld git) (event : Action × git.Data) : Prop where
  steady : SteadyFailure ws s.world event.1
  files : ∀ components, view.covers components → event.1.Touches s.world components →
    InStepAt issued.world components
  stays : s.head = issued.head → (s.next ws event).head = issued.head →
    view.part event.2 = view.part s.data
  returns : s.head ≠ issued.head → (s.next ws event).head = issued.head →
    view.part event.2 = view.part issued.data

/-- An entry of the code index as its snapshot tells it from others. -/
def FileEntry.told (entry : FileEntry) : FileEntry := { entry with modifiedNs := 0 }

/-- The snapshot id of these contents and HEAD is that of no other of the two. -/
def Telling (ws : Workspace) (first second : Reconciled) : Prop :=
  second.index.snapshotId ws second.repoStatus.head =
      first.index.snapshotId ws first.repoStatus.head →
    second.repoStatus.head = first.repoStatus.head ∧
      ∀ path, (second.index.lookup path).map FileEntry.told =
        (first.index.lookup path).map FileEntry.told

/-! ### The files an action leaves alone -/

namespace Disk

variable {disk disk' : Disk} {components : List Text}

theorem seen_setNode {node : Node} {at_ : List Text} (other : components ≠ at_) :
    (disk.setNode at_ node).seen components = disk.seen components := by
  rw [seen, node_setNode, if_neg fun same => other same.1, seen]

theorem seen_createDir (at_ : List Text) :
    (disk.createDir at_).seen components = disk.seen components := by
  rw [createDir]
  split
  · next absent =>
    by_cases same : components = at_
    · subst same
      cases components with
      | nil => rfl
      | cons name rest =>
        rw [seen, node_setNode, if_pos ⟨rfl, List.cons_ne_nil _ _⟩, seen, absent]
    · exact seen_setNode same
  · rfl

theorem seen_createDirAll (at_ : List Text) :
    (disk.createDirAll at_).seen components = disk.seen components := by
  rw [createDirAll]
  induction ancestors at_ generalizing disk with
  | nil => rfl
  | cons parent rest ih => rw [List.foldl_cons, ih, seen_createDir]

theorem seen_putContent {fault : Option IoError} {path : RelPath} {content : Option Text}
    {modifiedNs : Nat} (put : putContent disk fault path content modifiedNs = .ok disk')
    (other : components ≠ path.components) : disk'.seen components = disk.seen components := by
  cases content with
  | some content =>
    simp only [putContent, writeAtomic] at put
    split at put
    · cases put
    · split at put
      · cases put
      · cases put
        rw [seen_setNode other, seen_createDirAll]
  | none =>
    simp only [putContent, removeFile] at put
    split at put
    · cases put
    · cases put
      cases components with
      | nil => rfl
      | cons name rest =>
        have kept : (Disk.mk (disk.nodes.erase path.components)).node (name :: rest) =
            disk.node (name :: rest) := AList.lookup_erase_ne other
        rw [seen, kept, seen]

end Disk

section

variable {io : CommitIo} {components : List Text}

theorem seen_writePlan {items : List PlannedFile} {progress : CommitProgress} {world : World}
    (other : ∀ item ∈ items, components ≠ item.path.components) :
    (writePlan io items progress world).2.2.disk.seen components =
      world.disk.seen components := by
  induction items generalizing progress world with
  | nil => rfl
  | cons item rest ih =>
    rw [List.forall_mem_cons] at other
    rcases writePlan_cons io item rest progress world with ⟨-, _, _, eq⟩ | ⟨-, _, _, put, eq⟩
    · rw [eq]
    · rw [eq, ih other.2]
      exact Disk.seen_putContent put other.1

theorem seen_restoreEach {items : List PlannedFile} {report : CompensationReport} {disk : Disk}
    (other : ∀ item ∈ items, components ≠ item.path.components) :
    (restoreEach io items report disk).2.seen components = disk.seen components := by
  induction items generalizing report disk with
  | nil => rfl
  | cons item rest ih =>
    rw [List.forall_mem_cons] at other
    rw [restoreEach]
    split
    · next put => rw [ih other.2, Disk.seen_putContent put other.1]
    · exact ih other.2

theorem seen_compensate (ws : Workspace) {completed : List PlannedFile} {refreshIndex : Bool}
    {world : World} (other : ∀ item ∈ completed, components ≠ item.path.components) :
    (ws.compensate io completed refreshIndex world).2.disk.seen components =
      world.disk.seen components := by
  have restored : (restoreEach io completed.reverse .default world.disk).2.seen components =
      world.disk.seen components :=
    seen_restoreEach fun item mem => other item (List.mem_reverse.mp mem)
  rw [Workspace.compensate]
  split
  · rfl
  · revert restored
    generalize restoreEach io completed.reverse .default world.disk = outcome
    rcases outcome with ⟨report, disk⟩
    intro restored
    cases refreshIndex with
    | false => exact restored
    | true =>
      simp only [if_true]
      split <;> exact restored

theorem seen_commitPlan (ws : Workspace) {plan : List PlannedFile} {requestId : Text}
    {world : World} (other : ∀ item ∈ plan, components ≠ item.path.components) :
    (ws.commitPlan io plan requestId world).2.disk.seen components =
      world.disk.seen components := by
  have written : (writePlan io plan (.new plan) world).2.2.disk.seen components =
      world.disk.seen components := seen_writePlan other
  have completed := writePlan_completed io plan world
  revert written completed
  rw [Workspace.commitPlan]
  generalize writePlan io plan (.new plan) world = outcome
  rcases outcome with ⟨stop, progress, world'⟩
  intro written completed
  have others : ∀ item ∈ progress.completed, components ≠ item.path.components := by
    rw [completed]
    exact fun item mem => other item ((List.takeWhile_sublist _).subset mem)
  cases stop with
  | some stop => exact (seen_compensate ws others).trans written
  | none =>
    simp only
    split
    · exact (seen_compensate ws others).trans written
    · exact written

theorem seen_act {ws : Workspace} {action : Action} {world : World}
    (untouched : ¬action.Touches world components) :
    (ws.act action world).disk.seen components = world.disk.seen components := by
  cases action with
  | disk disk => exact not_not.mp untouched
  | observe | reconcile | rescan | refreshStatus => rfl
  | commit io plan requestId =>
    exact seen_commitPlan ws fun item mem same => untouched ⟨item, mem, same.symm⟩
  | git mutation =>
    cases mutation with
    | stage ran | commit ran => cases ran <;> rfl
    | restore ran =>
      cases ran with
      | error error => rfl
      | ok disk => exact not_not.mp untouched

end

/-! ### The runs under a continuation -/

theorem sound_act {ws : Workspace} {world : World} {action : Action}
    (sound : Sound ws world.state.shared) (steady : SteadyFailure ws world action) :
    Sound ws (ws.act action world).state.shared :=
  (publishes_act action sound steady).preserves (fun _ publish => publish.sound) sound

section

variable {git : Git} {scope : GitDiffScope} {ws : Workspace} {view : View git scope}
  {issued later : DiffWorld git} {events : List (Action × git.Data)}

theorem sound_of_keeps
    (run : Run (Along (KeepsDiff ws view issued) (DiffWorld.Step ws)) issued events later)
    (sound : Sound ws issued.shared) : Sound ws later.shared := by
  refine run.invariant_along (fun s => Sound ws s.shared) ?_ sound
  intro s event t sound keeps step
  rw [step]
  exact sound_act sound keeps.steady

theorem seen_of_keeps
    (run : Run (Along (KeepsDiff ws view issued) (DiffWorld.Step ws)) issued events later) :
    ∀ components, view.covers components → ¬InStepAt issued.world components →
      later.world.disk.seen components = issued.world.disk.seen components := by
  refine run.invariant_along (fun s => ∀ components, view.covers components →
    ¬InStepAt issued.world components →
      s.world.disk.seen components = issued.world.disk.seen components) ?_ fun _ _ _ => rfl
  intro s event t kept keeps step components covers behind
  rw [step]
  exact (seen_act fun touches => behind (keeps.files components covers touches)).trans
    (kept components covers behind)

theorem part_of_keeps
    (run : Run (Along (KeepsDiff ws view issued) (DiffWorld.Step ws)) issued events later) :
    later.head = issued.head → view.part later.data = view.part issued.data := by
  refine run.invariant_along (fun s => s.head = issued.head →
    view.part s.data = view.part issued.data) ?_ fun _ => rfl
  intro s event t kept keeps step back
  rw [step] at back ⊢
  by_cases under : s.head = issued.head
  · exact (keeps.stays under back).trans (kept under)
  · exact keeps.returns under back

end

section

variable {first second : Reconciled}
  (told : ∀ path, (second.index.lookup path).map FileEntry.told =
    (first.index.lookup path).map FileEntry.told)

include told

theorem findSymbolsAt_of_told (path name : Text) :
    second.index.findSymbolsAt path name = first.index.findSymbolsAt path name := by
  have same := told (normalizePathText path)
  rw [CodeIndex.findSymbolsAt, CodeIndex.findSymbolsAt, CodeIndex.get, CodeIndex.get]
  rw [CodeIndex.lookup, CodeIndex.lookup] at same
  cases found : first.index.files.lookup (normalizePathText path) with
  | none =>
    rw [found] at same
    rw [Option.map_eq_none_iff.mp same]
  | some entry =>
    rw [found] at same
    obtain ⟨other, found', same⟩ := Option.map_eq_some_iff.mp same
    rw [found']
    obtain ⟨path, content, hash, symbols, size, modifiedNs⟩ := entry
    obtain ⟨path', content', hash', symbols', size', modifiedNs'⟩ := other
    simp only [FileEntry.told, FileEntry.mk.injEq] at same
    obtain ⟨rfl, rfl, rfl, rfl, -⟩ := same
    rfl

theorem content_of_told (path : Text) :
    ((second.index.lookup path).map fun entry => Node.file entry.content.bytes 0) =
      (first.index.lookup path).map fun entry => .file entry.content.bytes 0 := by
  have through : (fun entry : FileEntry => Node.file entry.content.bytes 0) =
      (fun entry => .file entry.content.bytes 0) ∘ FileEntry.told := rfl
  rw [through, ← Option.map_map, told path, Option.map_map]

end

theorem focusRanges_of_told {world world' : World}
    (told : ∀ path, (world'.state.shared.index.lookup path).map FileEntry.told =
      (world.state.shared.index.lookup path).map FileEntry.told)
    (paths : List RelPath) (scope : GitDiffScope) :
    Workspace.focusRanges world' paths scope = Workspace.focusRanges world paths scope := by
  have symbols : Workspace.symbolRange world' paths scope =
      Workspace.symbolRange world paths scope := by
    funext symbol
    cases paths with
    | nil => rfl
    | cons path rest =>
      cases rest with
      | nil =>
        simp only [Workspace.symbolRange, findSymbolsAt_of_told told]
      | cons => rfl
  rw [Workspace.focusRanges, Workspace.focusRanges, symbols]

theorem selection_of_keeps {git : Git} {scope : GitDiffScope} {ws : Workspace}
    {view : View git scope} {issued later : DiffWorld git} {events : List (Action × git.Data)}
    (policy : GitPolicy)
    (run : Run (Along (KeepsDiff ws view issued) (DiffWorld.Step ws)) issued events later)
    (sound : Sound ws issued.shared) (telling : Telling ws issued.shared later.shared)
    (inStep : ∀ components, view.covers components → InStepAt issued.world components →
      InStepAt later.world components) (back : later.snapshotId = issued.snapshotId) :
    later.selection ws policy scope = issued.selection ws policy scope := by
  have named := sound.named
  have named' := (sound_of_keeps run sound).named
  rw [Named] at named named'
  obtain ⟨head, told⟩ := telling (named'.symm.trans (back.trans named))
  have files : ∀ components, view.covers components →
      later.world.disk.seen components = issued.world.disk.seen components := by
    intro components covers
    by_cases here : InStepAt issued.world components
    · calc
        _ = _ := inStep components covers here
        _ = _ := content_of_told told _
        _ = _ := here.symm
    · exact seen_of_keeps run components covers here
  have determined := view.determines (part_of_keeps run head) files ws
  rw [DiffWorld.selection, DiffWorld.selection, Workspace.selectedHunks, Workspace.selectedHunks]
  cases valid : validatePaths scope.paths with
  | error error => rfl
  | ok paths =>
    have diff := determined paths (some policy.maxContextChars) valid
    rw [← DiffWorld.repository, ← DiffWorld.repository] at diff
    simp only [bind, Except.bind, diff, focusRanges_of_told told]

namespace Workspace

variable {policy : GitPolicy} {world : World}

theorem pageAt_hunks (scope : GitDiffScope) (hunks : List DiffHunk) (offset : Nat)
    (maxChars : Option Nat) :
    (pageAt policy world scope hunks offset maxChars).hunks <+: hunks.drop offset :=
  ⟨_, Paging.page_append hunkBytes _ _⟩

theorem pageAt_continuation {scope : GitDiffScope} {hunks : List DiffHunk} {offset : Nat}
    {maxChars : Option Nat} {token : Text}
    (more : (pageAt policy world scope hunks offset maxChars).continuation = some token) :
    token = encodeGitDiffContinuation policy.codec ⟨world.state.shared.snapshotId,
      offset + (pageAt policy world scope hunks offset maxChars).hunks.length, scope⟩ := by
  simp only [pageAt] at more ⊢
  split at more
  · cases more
  · exact (Option.some.inj more).symm

theorem requestedScope_continued {request : GitDiffRequest} {continuation : GitDiffContinuation}
    {scope : GitDiffScope} {offset : Nat}
    (presented : request.continuation =
      some (encodeGitDiffContinuation policy.codec continuation))
    (accepted : requestedScope policy world request = .ok (scope, offset)) :
    world.state.shared.snapshotId = continuation.snapshotId ∧ scope = continuation.scope ∧
      offset = continuation.offset := by
  simp only [requestedScope, presented, decode_encodeGitDiffContinuation, bind, Except.bind]
    at accepted
  split at accepted
  · cases accepted
  · next current =>
    split at accepted
    · cases accepted
    · cases accepted
      exact ⟨(not_not.mp current).symm, rfl, rfl⟩

end Workspace

/-- A continuation that is accepted goes on in the list of hunks it was made from, where
every step up to then keeps the diff and the code index is in step with the disk again where it
was in step before. -/
theorem accepted_continues (ws : Workspace) (policy : GitPolicy) {git : Git} {start : World}
    {before : List Action} {issued later : DiffWorld git} {events : List (Action × git.Data)}
    {request presenting : GitDiffRequest} {page next : GitDiffPage} {token : Text}
    (view : View git page.scope) (opened : ws.Opened start)
    (earlier : Run (Along (SteadyFailure ws) ws.Step) start before issued.world)
    (run : Run (Along (KeepsDiff ws view issued) (DiffWorld.Step ws)) issued events later)
    (inStep : ∀ components, view.covers components → InStepAt issued.world components →
      InStepAt later.world components)
    (telling : Telling ws issued.shared later.shared)
    (asked : issued.gitDiff ws policy request = .ok page)
    (more : page.continuation = some token)
    (accepted : later.gitDiff ws policy presenting = .ok next)
    (presented : presenting.continuation = some token) :
    ∃ hunks start, issued.selection ws policy page.scope = .ok hunks ∧
      later.selection ws policy page.scope = .ok hunks ∧ next.scope = page.scope ∧
      page.hunks <+: hunks.drop start ∧ next.hunks <+: hunks.drop (start + page.hunks.length) := by
  have sound : Sound ws issued.shared := by
    refine earlier.invariant_along (fun world => Sound ws world.state.shared) ?_
      (sound_opened opened).1
    intro world action after sound steady step
    rw [step]
    exact sound_act sound steady
  obtain ⟨scope, offset, hunks, -, -, selected, rfl⟩ :=
    ws.gitDiff_inv policy issued.repository issued.world asked
  obtain ⟨scope', offset', hunks', -, requested, selected', rfl⟩ :=
    ws.gitDiff_inv policy later.repository later.world accepted
  rw [Workspace.pageAt_continuation more] at presented
  obtain ⟨back, rfl, rfl⟩ := Workspace.requestedScope_continued presented requested
  have kept := selection_of_keeps policy run sound telling inStep back
  have same : hunks' = hunks := Except.ok.inj (selected'.symm.trans (kept.trans selected))
  subst same
  exact ⟨hunks', offset, selected, selected', rfl, Workspace.pageAt_hunks _ _ _ _,
    Workspace.pageAt_hunks _ _ _ _⟩

namespace Sample

def bothUnstaged : RepoStatus :=
  { RepoStatus.default with
    isGit := true
    head := "c1".toList
    dirtyFiles := ["a".toList, "b".toList]
    unstagedFiles := ["a".toList, "b".toList] }

def stagedA : RepoStatus :=
  { bothUnstaged with stagedFiles := ["a".toList], unstagedFiles := ["b".toList] }

def changedA : Text := "one\nTWO\n".toList

def changedB : Text := "one\ntwo\nTHREE\n".toList

def unstaged (staged : List (List Text)) (disk : Disk) : Text :=
  (if ["a".toList] ∉ staged ∧ disk.seen ["a".toList] = some (.file changedA.bytes 0)
    then hunkOfA else []) ++
  if ["b".toList] ∉ staged ∧ disk.seen ["b".toList] = some (.file changedB.bytes 0)
    then hunkOfB else []

theorem unstaged_congr {disk disk' : Disk} (staged : List (List Text))
    (a : disk'.seen ["a".toList] = disk.seen ["a".toList])
    (b : disk'.seen ["b".toList] = disk.seen ["b".toList]) :
    unstaged staged disk' = unstaged staged disk := by
  simp only [unstaged, a, b]

def stagingGit : Git where
  Data := List (List Text)
  repository staged disk := printing (unstaged staged disk)

theorem diff_printing (text : Text) (disk disk' : Disk) (ws : Workspace) (staged : Bool)
    (paths : List RelPath) (budget : Budget) :
    (printing text).diff disk' ws staged paths budget =
      (printing text).diff disk ws staged paths budget := by
  have none_untracked : Repository.untrackedPaths [] = [] := by decide
  simp only [Repository.diff, Repository.diffText, Repository.untrackedDiff, printing,
    bind, Except.bind, none_untracked, Repository.untrackedPatches]

def bothFiles (scope : GitDiffScope) : View stagingGit scope where
  Part := List (List Text)
  part := id
  covers components := components ∈ [["a".toList], ["b".toList]]
  determines := by
    intro data data' disk disk' stored seen ws paths budget valid
    obtain rfl : data' = data := stored
    have same := unstaged_congr data' (seen _ (.head _)) (seen _ (.tail _ (.head _)))
    simp only [stagingGit, same]
    exact diff_printing _ _ _ _ _ _ _

def diskWith (a : Text) : Disk :=
  Disk.holding [(["a".toList], a), (["b".toList], changedB)]

def bothChanged : DiffWorld stagingGit where
  world := Workspace.plain.act (.refreshStatus (.ok bothUnstaged))
    (.opened .plain (diskWith changedA))
  data := []

def finding : ReconcileIo := { ReconcileIo.calm with status := .ok bothUnstaged }

def observingA : Action × List (List Text) := (.observe [.below "a".toList], [])

def reconciling : Action × List (List Text) := (.reconcile finding, [])

def changedAway : DiffWorld stagingGit :=
  ((bothChanged.next .plain (.disk (diskWith []), [])).next .plain observingA).next .plain
    reconciling

def changedBack : DiffWorld stagingGit :=
  ((changedAway.next .plain (.disk (diskWith changedA), [])).next .plain observingA).next .plain
    reconciling

def stagingA : Action × List (List Text) :=
  (.git (.stage (.ok ()) (.ok stagedA)), [["a".toList]])

end Sample

open Sample in
theorem inStep_bothChanged : ∀ components ∈ [["a".toList], ["b".toList]],
    InStepAt bothChanged.world components ∧ InStepAt changedBack.world components := by
  unfold InStepAt
  decide +kernel

open Sample in
theorem run_changedBack (scope : GitDiffScope) :
    Run (Along (KeepsDiff .plain (bothFiles scope) bothChanged) (DiffWorld.Step .plain))
      bothChanged [(.disk (diskWith []), []), observingA, reconciling,
        (.disk (diskWith changedA), []), observingA, reconciling] changedBack := by
  have keeps (s : DiffWorld stagingGit) (action : Action) (stored : s.data = [])
      (steady : SteadyFailure .plain s.world action) :
      KeepsDiff .plain (bothFiles scope) bothChanged s (action, []) :=
    ⟨steady, fun components covers _ => (inStep_bothChanged components covers).1,
      fun _ _ => stored.symm, fun _ _ => rfl⟩
  have steady (s : DiffWorld stagingGit) (readable : ∀ path ∈ s.world.state.ledger.pending,
      Workspace.plain.refreshes s.world.disk path = true →
        Workspace.plain.readable s.world.disk finding.faults path = true) :
      SteadyFailure .plain s.world (.reconcile finding) :=
    fun _ unread => absurd readable unread
  refine .snoc (.snoc (.snoc (.snoc (.snoc (.snoc (.nil _) ⟨keeps _ _ rfl trivial, rfl⟩)
    ⟨keeps _ _ rfl trivial, rfl⟩) ⟨keeps _ _ rfl (steady _ ?_), rfl⟩)
    ⟨keeps _ _ rfl trivial, rfl⟩) ⟨keeps _ _ rfl trivial, rfl⟩) ⟨keeps _ _ rfl (steady _ ?_), rfl⟩
  · decide +kernel
  · decide +kernel

open Sample in
theorem telling_changedBack : Telling .plain bothChanged.shared changedBack.shared := by
  have same : changedBack.shared.index.files.entries.Perm
      bothChanged.shared.index.files.entries := by
    decide +kernel
  refine fun _ => ⟨by decide +kernel, fun path => ?_⟩
  exact congrArg (Option.map FileEntry.told) (AList.perm_lookup same)

open Sample in
theorem accepted_continues_back :
    ∃ page token next hunks, bothChanged.gitDiff .plain (cappedAt 1000) (wholeDiff 1) = .ok page ∧
      changedAway.selection .plain (cappedAt 1000) page.scope ≠ .ok hunks ∧
      changedBack.gitDiff .plain (cappedAt 1000) (.following token (some 1)) = .ok next ∧
      changedBack.selection .plain (cappedAt 1000) page.scope = .ok hunks ∧ hunks.length = 2 ∧
      ∃ start, page.hunks <+: hunks.drop start ∧
        next.hunks <+: hunks.drop (start + page.hunks.length) := by
  have facts : (bothChanged.gitDiff .plain (cappedAt 1000) (wholeDiff 1)).toOption.any
      (fun page => page.continuation.any fun token =>
        (changedBack.gitDiff .plain (cappedAt 1000)
          (.following token (some 1))).toOption.any fun next =>
            (changedBack.selection .plain (cappedAt 1000) page.scope).toOption.any fun hunks =>
            changedAway.selection .plain (cappedAt 1000) page.scope ≠ .ok hunks ∧
            hunks.length = 2) = true := by
    decide +kernel
  obtain ⟨page, asked, facts⟩ := (Option.any_eq_true _ _).mp facts
  obtain ⟨token, more, facts⟩ := (Option.any_eq_true _ _).mp facts
  obtain ⟨next, accepted, facts⟩ := (Option.any_eq_true _ _).mp facts
  obtain ⟨hunks, selected, facts⟩ := (Option.any_eq_true _ _).mp facts
  obtain ⟨away, two⟩ := of_decide_eq_true facts
  have asked := eq_ok_of_toOption asked
  have accepted := eq_ok_of_toOption accepted
  have selected := eq_ok_of_toOption selected
  have opened : Workspace.plain.Opened (.opened .plain (diskWith changedA)) :=
    Workspace.plain.opened_opened (by decide)
  have refreshed : Run (Along (SteadyFailure .plain) Workspace.plain.Step) _
      [.refreshStatus (.ok bothUnstaged)] bothChanged.world := .single ⟨trivial, rfl⟩
  obtain ⟨hunks', start, -, selected', -, shown, continued⟩ := accepted_continues .plain
    (cappedAt 1000) (bothFiles page.scope) opened refreshed (run_changedBack page.scope)
    (fun components covers _ => (inStep_bothChanged components covers).2)
    telling_changedBack asked more accepted rfl
  cases selected.symm.trans selected'
  exact ⟨page, token, next, hunks, asked, away, accepted, selected, two, start, shown, continued⟩

-- Staging moves the hunk that was shown out of the diff, and the one left is skipped.
open Sample in
theorem continued_after_staging :
    ∃ page token next, bothChanged.gitDiff .plain (cappedAt 1000) (wholeDiff 1) = .ok page ∧
      page.continuation = some token ∧
      (bothChanged.next .plain stagingA).gitDiff .plain (cappedAt 1000)
        (.following token (some 1)) = .ok next ∧
      (bothChanged.next .plain stagingA).selection .plain (cappedAt 1000) page.scope ≠
        bothChanged.selection .plain (cappedAt 1000) page.scope ∧
      next.hunks = [] ∧ next.continuation = none := by
  have facts : (bothChanged.gitDiff .plain (cappedAt 1000) (wholeDiff 1)).toOption.any
      (fun page => page.continuation.any fun token =>
        ((bothChanged.next .plain stagingA).gitDiff .plain (cappedAt 1000)
          (.following token (some 1))).toOption.any fun next =>
            (bothChanged.next .plain stagingA).selection .plain (cappedAt 1000) page.scope ≠
              bothChanged.selection .plain (cappedAt 1000) page.scope ∧
            next.hunks = [] ∧ next.continuation = none) = true := by
    decide +kernel
  obtain ⟨page, asked, facts⟩ := (Option.any_eq_true _ _).mp facts
  obtain ⟨token, more, facts⟩ := (Option.any_eq_true _ _).mp facts
  obtain ⟨next, accepted, facts⟩ := (Option.any_eq_true _ _).mp facts
  exact ⟨page, token, next, eq_ok_of_toOption asked, more, eq_ok_of_toOption accepted,
    of_decide_eq_true facts⟩

end CodeWeave
