import CodeWeave.Defs.Index.TreeLaws
import CodeWeave.Defs.Workspace.ReconcileLaws
import CodeWeave.Defs.Workspace.System

namespace CodeWeave

open Overwrite Runs

def Scanned (ws : Workspace) (world : World) : Prop :=
  ∃ index, ws.scan world.disk .calm = .ok index ∧ world.state.shared.index.hashAt = index.hashAt

structure Moment where
  disk : Disk
  observed : List (List Text)

structure Batch where
  moments : List Moment
  io : ReconcileIo

namespace Batch

variable (ws : Workspace) (batch : Batch)

def observed : List (List Text) := batch.moments.flatMap Moment.observed

def actions : List Action :=
  batch.moments.flatMap fun moment =>
    [.disk moment.disk, .observe (moment.observed.map pathOf)]

def changed (world : World) : World :=
  batch.actions.foldl (fun world action => ws.act action world) world

def Step (world : World) (batch : Batch) (later : World) : Prop :=
  (ws.reconcileWith batch.io (batch.changed ws world).disk (batch.changed ws world).state).1.isOk =
      true ∧
    later = ws.act (.reconcile batch.io) (batch.changed ws world)

theorem Step.run {world later : World} (step : Step ws world batch later) :
    Run ws.Step world (batch.actions ++ [.reconcile batch.io]) later :=
  .snoc (ws.run_foldl_act batch.actions world) step.2

end Batch

structure Reported (ws : Workspace) (old new : Disk) (observed : List (List Text)) : Prop where
  present : ∀ path content, ws.excludedPath (pathOf path) = false →
    textAt new path = some content → textAt old path ≠ some content → path ∈ observed
  gone : ∀ path, ws.excludedPath (pathOf path) = false → textAt new path = none →
    textAt old path ≠ none → ∃ top ∈ observed, top <+: path ∧ new.fileAt top = none ∧
      new.isDir (pathOf top) = false ∧ ws.isTempFile (pathOf top) = false

structure Batch.Fits (ws : Workspace) (world : World) (batch : Batch) : Prop where
  tree : TextTree ws (batch.changed ws world).disk
  plain : ∀ path ∈ batch.observed, PlainPath path
  reported : Reported ws world.disk (batch.changed ws world).disk batch.observed

/-- What the watcher lets through. -/
structure Passes (ws : Workspace) (path : List Text) : Prop where
  named : path ≠ []
  watched : path.any ignoredPathComponent = false
  lasting : ws.isTempFile (pathOf path) = false

structure Queues (ws : Workspace) (observed : List (List Text)) (ledger : ChangeLedger) : Prop where
  only : ∀ path ∈ ledger.pending, ∃ parts ∈ observed, path = pathOf parts
  all : ∀ parts ∈ observed, Passes ws parts → pathOf parts ∈ ledger.pending
  asked : ledger.pending ≠ [] → ledger.needsReconcile = true

theorem joinSegments_eq_nil {parts : List Text} (plain : PlainPath parts)
    (empty : joinSegments parts = []) : parts = [] := by
  rw [← segments_joinSegments plain, empty]
  rfl

section

variable {ws : Workspace} {observed : List (List Text)} {ledger : ChangeLedger}

theorem Queues.of_nothing (nothing : ledger.pending = []) : Queues ws [] ledger := by
  constructor
  · intro path mem
    rw [nothing] at mem
    cases mem
  · intro parts mem
    cases mem
  · exact fun some => absurd nothing some

theorem Queues.observeOne (unfiltered : ws.Unfiltered) (disk : Disk)
    (queues : Queues ws observed ledger) (plainAll : ∀ parts ∈ observed, PlainPath parts)
    {parts : List Text} (plain : PlainPath parts) :
    Queues ws (observed ++ [parts]) (ledger.observeOne ws disk (pathOf parts)) := by
  have grown : ∀ path ∈ ledger.pending, ∃ parts' ∈ observed ++ [parts], path = pathOf parts' := by
    intro path mem
    obtain ⟨parts', inObserved, eq⟩ := queues.only path mem
    exact ⟨parts', List.mem_append_left _ inObserved, eq⟩
  have relative : PathBuf.relative (.below (joinSegments parts)) = joinSegments parts :=
    plain.relative_pathOf
  simp only [pathOf, ChangeLedger.observeOne, relative]
  split
  · next dropped =>
    refine ⟨grown, fun parts' mem passes => ?_, queues.asked⟩
    cases List.mem_append.mp mem with
    | inl before => exact queues.all parts' before passes
    | inr now =>
      rw [List.mem_singleton.mp now] at passes
      have ignored := Workspace.isIgnored_pathOf unfiltered.matcher plain passes.named
        (disk.isDir (pathOf parts))
      have named : joinSegments parts ≠ [] := fun empty =>
        passes.named (joinSegments_eq_nil plain empty)
      rw [pathOf] at ignored
      simp only [named, decide_false, Bool.false_or, ignored, passes.watched] at dropped
      exact absurd dropped (by simpa [pathOf] using passes.lasting)
  · refine ⟨fun path mem => ?_, fun parts' mem passes => ?_, fun _ => rfl⟩
    · cases mem_or_eq_of_mem_insertPath mem with
      | inl before => exact grown path before
      | inr now => exact ⟨parts, by simp, now⟩
    · cases List.mem_append.mp mem with
      | inl before => exact subset_insertPath (queues.all parts' before passes)
      | inr now =>
        rw [List.mem_singleton.mp now]
        -- A queued path with this key is this path, as both are plain.
        obtain ⟨path, inPending, keys⟩ : ∃ path ∈ insertPath (pathOf parts) ledger.pending,
            path.key = (pathOf parts).key := exists_key_insertPath.mpr (.inl rfl)
        cases mem_or_eq_of_mem_insertPath inPending with
        | inr here => exact here ▸ inPending
        | inl before =>
          obtain ⟨parts'', inObserved, rfl⟩ := queues.only path before
          rw [(plainAll parts'' inObserved).key_pathOf] at keys
          have equal : parts'' = parts := (Prod.ext_iff.mp (keys.trans plain.key_pathOf)).2
          rw [← equal] at inPending ⊢
          exact inPending

theorem Queues.observe (unfiltered : ws.Unfiltered) (disk : Disk) {more : List (List Text)}
    (plainAll : ∀ parts ∈ observed ++ more, PlainPath parts) (queues : Queues ws observed ledger) :
    Queues ws (observed ++ more) (ledger.observe ws disk (more.map pathOf)) := by
  rw [ChangeLedger.observe]
  induction more generalizing observed ledger with
  | nil => simpa using queues
  | cons parts rest ih =>
    rw [List.append_cons] at plainAll ⊢
    refine ih plainAll (queues.observeOne unfiltered disk ?_ ?_)
    · exact fun parts' mem => plainAll parts' (by simp [mem])
    · exact plainAll parts (by simp)

theorem Queues.changed (unfiltered : ws.Unfiltered) (batch : Batch) (world : World)
    (plain : ∀ path ∈ batch.observed, PlainPath path)
    (queues : Queues ws [] world.state.ledger) :
    Queues ws batch.observed (batch.changed ws world).state.ledger ∧
      (batch.changed ws world).state.shared = world.state.shared := by
  obtain ⟨moments, io⟩ := batch
  have general : ∀ (moments : List Moment) (observed : List (List Text)) (world : World),
      (∀ path ∈ observed ++ moments.flatMap Moment.observed, PlainPath path) →
      Queues ws observed world.state.ledger →
      Queues ws (observed ++ moments.flatMap Moment.observed)
          ((Batch.mk moments io).changed ws world).state.ledger ∧
        ((Batch.mk moments io).changed ws world).state.shared = world.state.shared := by
    intro moments
    induction moments with
    | nil =>
      intro observed world plain queues
      simpa [Batch.changed, Batch.actions] using queues
    | cons moment rest ih =>
      intro observed world plain queues
      rw [List.flatMap_cons, ← List.append_assoc] at plain ⊢
      have next := queues.observe unfiltered moment.disk
        (fun path mem => plain path (List.mem_append_left _ mem))
      exact ih (observed ++ moment.observed)
        (ws.act (.observe (moment.observed.map pathOf)) (ws.act (.disk moment.disk) world)) plain next
  exact general moments [] world plain queues

end

section

variable {ws : Workspace} {disk : Disk} {faults : ReadFaults} {path : List Text}

theorem refreshes_pathOf (unfiltered : ws.Unfiltered) (plain : PlainPath path)
    (passes : Passes ws path) (notDir : disk.isDir (pathOf path) = false) :
    ws.refreshes disk (pathOf path) = true := by
  have notGit : ¬isGitPath (joinSegments path) := by
    intro git
    have plainGit : PlainPath [gitName] := by decide
    have joined : joinSegments [gitName] = gitName := by decide
    have below : [gitName] <+: path :=
      (plainGit.atOrBelow_iff plain (List.cons_ne_nil _ _)).mp (by rw [joined]; exact git)
    have watched := passes.watched
    rw [List.any_eq_false] at watched
    exact watched gitName (below.subset (List.mem_singleton_self _)) (by decide)
  have named : joinSegments path ≠ [] := fun empty => passes.named (joinSegments_eq_nil plain empty)
  have notDot : joinSegments path ≠ ['.'] := by
    intro dot
    apply passes.named
    rw [← segments_joinSegments plain, dot]
    rfl
  have watched := Workspace.isIgnored_pathOf unfiltered.matcher plain passes.named false
  simp [Workspace.refreshes, Workspace.drains, plain.relative_pathOf, notGit, named, notDot, notDir,
    watched, passes.watched, passes.lasting]

theorem passes_of_included (plain : PlainPath path) (named : path ≠ [])
    (included : ws.excludedPath (pathOf path) = false) : Passes ws path :=
  ⟨named, (included_pathOf plain included).1, (included_pathOf plain included).2⟩

theorem listed_of_patch (unfiltered : ws.Unfiltered) (tree : TextTree ws disk)
    (plain : PlainPath path) (named : path ≠ []) (notDir : disk.isDir (pathOf path) = false)
    (readable : ws.readable disk faults (pathOf path) = true) {key : Text}
    {entry : Option FileEntry}
    (decides : (ws.effectOf disk faults (pathOf path)).patch key = some entry)
    (hash : ContentHash) :
    entry.map FileEntry.hash = some hash ↔ Listed ws disk key hash := by
  cases file : disk.fileAt path with
  | none =>
    rw [effectOf_absent plain named file] at decides
    simp only [Effect.patch] at decides
    split at decides
    · next below =>
      cases decides
      refine iff_of_false (fun found => by cases found) ?_
      rintro ⟨other, content, -, text, rfl, -⟩
      have plainOther := plain_of_textAt tree text
      have above := (plain.atOrBelow_iff plainOther named).mp below
      obtain ⟨bytes, present, -⟩ := textAt_eq_some text
      obtain ⟨modifiedNs, node⟩ := Disk.fileAt_eq_some.mp present
      by_cases same : path = other
      · rw [same, present] at file
        cases file
      · rw [Disk.isDir_pathOf plain, tree.parents other _ path node above same] at notDir
        cases notDir
    · cases decides
  | some bytes =>
    obtain ⟨skips, -⟩ | ⟨content, put, included, text, inserts, names, hashes⟩ :=
      effectOf_file unfiltered tree plain named readable (by rw [file]; rfl)
    · rw [skips] at decides
      cases decides
    · rw [inserts] at decides
      simp only [Effect.patch] at decides
      split at decides
      · next own =>
        cases decides
        rw [Option.map_some, Option.some.injEq, hashes]
        constructor
        · rintro rfl
          exact ⟨path, content, included, text, names.symm.trans own.symm, rfl⟩
        · rintro ⟨other, content', -, text', same, rfl⟩
          have paths : path = other := by
            refine joinSegments_injOn plain (plain_of_textAt tree text') ?_
            rw [same, own, names]
          subst paths
          rw [Option.some.inj (text.symm.trans text')]
      · cases decides

end

section

variable {ws : Workspace} {io : ReconcileIo} {old new : Disk} {state : ReconciledState}
  {observed : List (List Text)} (unfiltered : ws.Unfiltered) (before : TextTree ws old)
  (after : TextTree ws new) (plain : ∀ path ∈ observed, PlainPath path)
  (queues : Queues ws observed state.ledger) (reported : Reported ws old new observed)
  (reads : ∀ path ∈ state.ledger.pending, ws.refreshes new path = true →
    ws.readable new io.faults path = true)

include unfiltered before after plain queues reported reads

theorem decided_of_changed {path : List Text}
    (included : ws.excludedPath (pathOf path) = false) (moved : textAt new path ≠ textAt old path) :
    ∃ patch ∈ ws.patches new io.faults (io.paths ws new state.ledger),
      patch (joinSegments path) ≠ none := by
  have queued : ∀ top ∈ observed, Passes ws top → new.isDir (pathOf top) = false →
      (ws.effectOf new io.faults (pathOf top)).patch ∈
          ws.patches new io.faults (io.paths ws new state.ledger) ∧
        ws.readable new io.faults (pathOf top) = true := by
    intro top mem passes notDir
    have refreshes := refreshes_pathOf unfiltered (plain top mem) passes notDir
    have pending := queues.all top mem passes
    have all : ∀ path ∈ io.paths ws new state.ledger, ws.readable new io.faults path = true :=
      fun path inPaths => reads path (ReconcileIo.mem_paths.mp inPaths).1
        (ReconcileIo.mem_paths.mp inPaths).2
    rw [Workspace.patches, ws.refreshed_eq_self all]
    exact ⟨List.mem_map.mpr ⟨_, ReconcileIo.mem_paths.mpr ⟨pending, refreshes⟩, rfl⟩,
      reads _ pending refreshes⟩
  cases text : textAt new path with
  | some content =>
    have plainPath := plain_of_textAt after text
    obtain ⟨bytes, file, -⟩ := textAt_eq_some text
    have named := Disk.named_of_fileAt file
    have mem := reported.present path content included text fun same => moved (by rw [text, same])
    obtain ⟨inPatches, readable⟩ := queued path mem (passes_of_included plainPath named included)
      (isDir_of_fileAt plainPath file)
    refine ⟨_, inPatches, ?_⟩
    obtain ⟨-, excluded | without⟩ | ⟨content', put, -, -, inserts, names, -⟩ :=
      effectOf_file unfiltered after plainPath named readable (by rw [file]; rfl)
    · rw [included] at excluded
      cases excluded
    · rw [text] at without
      cases without
    · rw [inserts, Effect.patch, if_pos names.symm]
      exact Option.some_ne_none _
  | none =>
    obtain ⟨content, was⟩ := Option.ne_none_iff_exists'.mp fun none => moved (text.trans none.symm)
    obtain ⟨top, mem, above, absent, notDir, lasting⟩ :=
      reported.gone path included text (by rw [was]; exact Option.some_ne_none _)
    have plainPath := plain_of_textAt before was
    have plainTop := plain top mem
    have named : top ≠ [] := by
      rintro rfl
      cases notDir
    have watched : top.any ignoredPathComponent = false := by
      have whole := (included_pathOf plainPath included).1
      rw [List.any_eq_false] at whole ⊢
      exact fun name inTop => whole name (above.subset inTop)
    obtain ⟨inPatches, -⟩ := queued top mem ⟨named, watched, lasting⟩ notDir
    refine ⟨_, inPatches, ?_⟩
    rw [effectOf_absent plainTop named absent, Effect.patch,
      if_pos ((plainTop.atOrBelow_iff plainPath named).mpr above)]
    exact Option.some_ne_none _

theorem hashAt_refreshed (listed : ∀ key hash,
      state.shared.index.hashAt key = some hash ↔ Listed ws old key hash)
    (key : Text) (hash : ContentHash) :
    (refreshedState ws io new state).index.hashAt key = some hash ↔ Listed ws new key hash := by
  simp only [refreshedState, Reconciled.withIndex, CodeIndex.hashAt, ws.lookup_refreshedIndex]
  cases applyAll_cases (ws.patches new io.faults (io.paths ws new state.ledger)) key
      state.shared.index.lookup with
  | inl untouched =>
    rw [applyAll_untouched untouched]
    refine (listed key hash).trans ?_
    have same : ∀ path, ws.excludedPath (pathOf path) = false → joinSegments path = key →
        textAt new path = textAt old path := by
      intro path included names
      by_contra moved
      obtain ⟨patch, mem, decides⟩ :=
        decided_of_changed unfiltered before after plain queues reported reads included moved
      rw [names] at decides
      exact decides (untouched patch mem)
    constructor
    · rintro ⟨path, content, included, text, names, hashes⟩
      exact ⟨path, content, included, (same path included names).trans text, names, hashes⟩
    · rintro ⟨path, content, included, text, names, hashes⟩
      exact ⟨path, content, included, (same path included names).symm.trans text, names, hashes⟩
  | inr decided =>
    obtain ⟨pre, patch, post, split, -, decides⟩ := decided
    have mem : patch ∈ ws.patches new io.faults (io.paths ws new state.ledger) := by
      rw [split]
      simp
    obtain ⟨path, gone_through, rfl⟩ := List.mem_map.mp mem
    have pending := ReconcileIo.mem_paths.mp ((List.takeWhile_subset _) gone_through)
    obtain ⟨parts, inObserved, rfl⟩ := queues.only path pending.1
    have plainParts := plain parts inObserved
    have readable := reads _ pending.1 pending.2
    have drains := (Bool.and_eq_true_iff.mp pending.2).2
    simp only [Workspace.drains, Bool.not_eq_true', Bool.or_eq_false_iff, decide_eq_false_iff_not,
      plainParts.relative_pathOf] at drains
    have named : parts ≠ [] := by
      rintro rfl
      exact drains.1.1.1.1 rfl
    exact listed_of_patch unfiltered after plainParts named drains.2 readable decides hash

end

theorem hashAt_reconcileWith (ws : Workspace) (io : ReconcileIo) (disk : Disk)
    (state : ReconciledState) {observed : List (List Text)}
    (queues : Queues ws observed state.ledger)
    (ok : (ws.reconcileWith io disk state).1.isOk = true) :
    (ws.reconcileWith io disk state).2.shared.index.hashAt =
        (refreshedState ws io disk state).index.hashAt ∧
      Queues ws [] (ws.reconcileWith io disk state).2.ledger ∧
      ∀ path ∈ state.ledger.pending, ws.refreshes disk path = true →
        ws.readable disk io.faults path = true := by
  have outcome := reconcileWith_outcome ws io disk state
  revert outcome ok
  generalize ws.reconcileWith io disk state = result
  cases result with
  | mk result later =>
  intro ok outcome
  cases outcome with
  | idle none_asked =>
    have nothing : later.ledger.pending = [] := by
      by_contra some
      rw [queues.asked some] at none_asked
      cases none_asked
    have paths : io.paths ws disk later.ledger = [] := by
      rw [ReconcileIo.paths, nothing]
      exact (io.order.perm []).eq_nil
    refine ⟨?_, .of_nothing nothing, fun path mem => ?_⟩
    · simp [refreshedState, Reconciled.withIndex, paths, Workspace.refreshedIndex,
        Workspace.refreshed]
    · rw [nothing] at mem
      cases mem
  | failed asked fails => cases ok
  | quiet asked reads unchanged same =>
    exact ⟨congrArg CodeIndex.hashAt (Reconciled.consultStatus_index _ _ _), .of_nothing rfl, reads⟩
  | published asked reads refreshed moved =>
    refine ⟨congrArg CodeIndex.hashAt (publishedState_index ..), ?_, reads⟩
    simp only
    split
    · exact .of_nothing rfl
    · exact .of_nothing rfl

structure InStep (ws : Workspace) (world : World) : Prop where
  tree : TextTree ws world.disk
  listed : ∀ key hash, world.state.shared.index.hashAt key = some hash ↔
    Listed ws world.disk key hash
  queues : Queues ws [] world.state.ledger

section

variable {ws : Workspace} (unfiltered : ws.Unfiltered)

include unfiltered

theorem InStep.batch {world later : World} {batch : Batch} (inStep : InStep ws world)
    (fits : batch.Fits ws world) (step : batch.Step ws world later) : InStep ws later := by
  obtain ⟨ok, rfl⟩ := step
  obtain ⟨queues, shared⟩ := inStep.queues.changed unfiltered batch world fits.plain
  obtain ⟨index, after, reads⟩ := hashAt_reconcileWith ws batch.io _ _ queues ok
  refine ⟨fits.tree, fun key hash => ?_, after⟩
  simp only [Workspace.act, index]
  refine hashAt_refreshed unfiltered inStep.tree fits.tree fits.plain queues fits.reported reads ?_
    key hash
  rw [shared]
  exact inStep.listed

theorem scan_isOk (disk : Disk) : (ws.scan disk .calm).isOk = true := by
  rw [ws.scan_isOk]
  refine ⟨fun file _ _ => ?_, fun text mem => ?_⟩
  · exact ws.readEntry_calm disk (pathOf file) ∅
  · rw [unfiltered.artifactPaths] at mem
    cases mem

theorem InStep.scanned {world : World} (inStep : InStep ws world) : Scanned ws world := by
  have ok := scan_isOk unfiltered world.disk
  cases scan : ws.scan world.disk .calm with
  | error error => rw [scan] at ok; cases ok
  | ok index =>
    refine ⟨index, scan, ?_⟩
    funext key
    ext hash
    rw [inStep.listed, hashAt_scan unfiltered inStep.tree scan]

/-- Batch after batch, the index is what a scan of the tree would give, as long as
each batch reports its changes so. -/
theorem batches_scanned (start : World) {later : World} {batches : List Batch} {io : ScanIo}
    {index : CodeIndex} {status : AppResult RepoStatus} (tree : TextTree ws start.disk)
    (scan : ws.scan start.disk io = .ok index) (new : start.state = .new ws index status)
    (run : Run (Along (Batch.Fits ws) (Batch.Step ws))
      start batches later) : Scanned ws later := by
  have initially : InStep ws start := by
    refine ⟨tree, fun key hash => ?_, ?_⟩
    · rw [new, ← hashAt_scan unfiltered tree scan]
      cases status <;> rfl
    · rw [new]
      exact .of_nothing rfl
  have inStep : InStep ws later :=
    run.invariant_along (InStep ws)
      (fun _ _ _ inStep fits step => inStep.batch unfiltered fits step) initially
  exact inStep.scanned unfiltered

end

theorem Reported.of_keys {ws : Workspace} {old new : Disk} {observed : List (List Text)}
    (present : ∀ path ∈ new.nodes.keys, ws.excludedPath (pathOf path) = false →
      (textAt new path).isSome = true → textAt old path ≠ textAt new path → path ∈ observed)
    (gone : ∀ path ∈ old.nodes.keys, ws.excludedPath (pathOf path) = false →
      (textAt new path).isNone = true → (textAt old path).isSome = true →
      ∃ top ∈ observed, top <+: path ∧ (new.fileAt top).isNone = true ∧
        new.isDir (pathOf top) = false ∧ ws.isTempFile (pathOf top) = false) :
    Reported ws old new observed where
  present path content included text differs := by
    obtain ⟨bytes, file, -⟩ := textAt_eq_some text
    refine present path (Disk.mem_keys_of_fileAt file) included (by rw [text]; rfl) ?_
    rw [text]
    exact differs
  gone path included without was := by
    obtain ⟨content, text⟩ := Option.ne_none_iff_exists'.mp was
    obtain ⟨bytes, file, -⟩ := textAt_eq_some text
    obtain ⟨top, mem, above, absent, rest⟩ := gone path (Disk.mem_keys_of_fileAt file) included
      (by rw [without]; rfl) (by rw [text]; rfl)
    exact ⟨top, mem, above, Option.isNone_iff_eq_none.mp absent, rest⟩

/-- The watcher observes each changed file itself, or a directory above it that was
created or removed; one that was moved is removed in one place and created in another. -/
def Witnessed (old new : Disk) (observed : List (List Text)) : Prop :=
  ∀ path, old.fileAt path ≠ new.fileAt path → path ∈ observed ∨
    ∃ top ∈ observed, top <+: path ∧ top ≠ path ∧
      old.isDir (pathOf top) ≠ new.isDir (pathOf top)

structure Batch.Observes (ws : Workspace) (world : World) (batch : Batch) : Prop where
  tree : TextTree ws (batch.changed ws world).disk
  plain : ∀ path ∈ batch.observed, PlainPath path
  witnessed : Witnessed world.disk (batch.changed ws world).disk batch.observed

namespace Sample

def d : Text := "d".toList

def x : Text := "x".toList

def y : Text := "y".toList

def noteTree : Disk := Disk.holding [([d, x], "old".toList), ([y], "old".toList)]

def tidying : Batch :=
  ⟨[⟨Disk.holding [([y], "old".toList)], [[d]]⟩,
    ⟨Disk.holding [([y], "new".toList), ([x], "new".toList)], [[y], [x]]⟩], .calm⟩

def movingIn : Batch := ⟨[⟨Disk.holding [([d, x], "new".toList)], [[d]]⟩], .calm⟩

theorem unfiltered_plain : Workspace.plain.Unfiltered := ⟨rfl, rfl, rfl⟩

end Sample

open Sample in
theorem batches_scanned_tidying :
    Scanned .plain (Workspace.plain.act (.reconcile .calm)
      (tidying.changed .plain (.opened .plain noteTree))) := by
  have ok := scan_isOk unfiltered_plain noteTree
  obtain ⟨index, scan, state⟩ := Workspace.plain.opened_scan noteTree ok
  have tree : TextTree .plain noteTree := .of_keys (by decide) (by decide) (by decide)
  have fits : tidying.Fits .plain (.opened .plain noteTree) :=
    ⟨.of_keys (by decide) (by decide) (by decide), by decide, .of_keys (by decide) (by decide)⟩
  exact batches_scanned unfiltered_plain (.opened .plain noteTree) tree scan state
    (.single ⟨fits, by decide, rfl⟩)

-- A queued directory is not looked into.
open Sample in
theorem moved_directory_unscanned :
    Workspace.plain.Unfiltered ∧
      ¬∀ (start later : World) (batches : List Batch) (io : ScanIo) (index : CodeIndex)
        (status : AppResult RepoStatus), TextTree .plain start.disk →
        Workspace.plain.scan start.disk io = .ok index →
        start.state = .new .plain index status →
        Run (Along (Batch.Observes .plain) (Batch.Step .plain)) start batches later →
        Scanned .plain later := by
  refine ⟨unfiltered_plain, fun all => ?_⟩
  let start : World := .opened .plain (Disk.holding [])
  let moved := movingIn.changed .plain start
  let later := Workspace.plain.act (.reconcile .calm) moved
  obtain ⟨index, scan, state⟩ := Workspace.plain.opened_scan start.disk (by decide)
  have observes : movingIn.Observes .plain start := by
    refine ⟨.of_keys (by decide) (by decide) (by decide), by decide, fun path changed => ?_⟩
    refine .inr ⟨[d], by decide, ?_⟩
    have file : moved.disk.fileAt path =
        if path = [d, x] then some (Text.bytes "new".toList) else start.disk.fileAt path := by
      have inside : [d, x] ≠ [] := List.cons_ne_nil _ _
      rw [← Disk.fileAt_createDirAll start.disk [d, x], ← Disk.fileAt_setNode_file _ inside _ 0]
      rfl
    have here : path = [d, x] := by
      by_contra other
      rw [file, if_neg other] at changed
      exact changed rfl
    subst here
    decide
  have scanned := all start later [movingIn] .calm index (.ok .default)
    (.of_keys (by decide) (by decide) (by decide)) scan state (.single ⟨observes, by decide, rfl⟩)
  obtain ⟨fresh, rescan, same⟩ := scanned
  have missing : later.state.shared.index.hashAt "d/x".toList = none := by decide
  have present : (Workspace.plain.scan later.disk .calm).toOption.bind
      (fun index => index.hashAt "d/x".toList) = some "new".toList := by decide
  rw [rescan] at present
  simp only [Except.toOption, Option.bind, ← same, missing] at present
  cases present

end CodeWeave
