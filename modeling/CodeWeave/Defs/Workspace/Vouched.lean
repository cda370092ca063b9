import CodeWeave.Defs.Workspace.CommitLaws
import CodeWeave.Defs.Workspace.PathSpelling

namespace CodeWeave

/-- A path text with no empty and no `.` component once it is normalized. -/
def Canonical (text : Text) : Prop :=
  joinSegments (segments (normalizePathText text)) = normalizePathText text

instance (text : Text) : Decidable (Canonical text) := inferInstanceAs (Decidable (_ = _))

/-- A change vouches for the original content of a file: it names the file, and a
current snapshot, an expected hash or a handle's hash covers that content. -/
structure Vouches (ws : Workspace) (request : EditRequest) (shared : Reconciled) (change : Change)
    (item : PlannedFile) : Prop where
  named : RelPath.new change.path = .ok item.path
  covered : request.snapshotId = some shared.snapshotId ∨
    (∃ hash, change.expectedHash = some hash ∧ item.beforeHash = some hash) ∨
    ∃ input handle, change.handle = some input ∧ ws.decodeHandle input = .ok handle ∧
      item.beforeHash = some handle.contentHash

structure Vouched (ws : Workspace) (request : EditRequest) (shared : Reconciled)
    (item : PlannedFile) : Prop where
  before : item.before = (shared.index.get item.path.text).map FileEntry.content
  beforeHash : item.beforeHash = item.before.map ws.contentHash
  vouched : item.before.isSome → ∃ change ∈ request.changes, Vouches ws request shared change item

section

variable {ws : Workspace} {request : EditRequest} {shared : Reconciled} {plan plan' : EditPlan}

-- Only a first change to a file gives its entry a `before`.
theorem Vouched.putPlan {path : RelPath} {before after : Option Text}
    (vouched : ∀ item, plan.lookup item.path = some item → Vouched ws request shared item)
    (keyed : Keyed plan)
    (first : plan.lookup path = none → Vouched ws request shared (.new ws path before after))
    {item : PlannedFile} (found : (putPlan ws plan path before after).lookup item.path = some item) :
    Vouched ws request shared item := by
  rw [lookup_putPlan] at found
  split at found
  · cases existing : plan.lookup path with
    | none =>
      simp only [existing, Option.elim, Option.some.injEq] at found
      rw [← found]
      exact first existing
    | some old =>
      simp only [existing, Option.elim, Option.some.injEq] at found
      have kept := vouched old (by rw [keyed path old existing, existing])
      rw [← found]
      refine ⟨kept.before, kept.beforeHash, fun present => ?_⟩
      obtain ⟨change, mem, vouches⟩ := kept.vouched present
      exact ⟨change, mem, vouches.named, vouches.covered⟩
  · exact vouched item found

theorem handle_of_editHandle {change : Change} {path : Text} {handle : RangeHandleWire}
    (h : ws.editHandle change path = .ok (some handle)) :
    ∃ input, change.handle = some input ∧ ws.decodeHandle input = .ok handle := by
  rw [Workspace.editHandle] at h
  split at h
  · cases h
  · next input carries =>
    simp only [bind_eq_ok] at h
    obtain ⟨decoded, decodes, -, -, h⟩ := h
    cases h
    exact ⟨input, carries, decodes⟩

theorem vouched_planChange {change : Change} (mem : change ∈ request.changes)
    (keyed : Keyed plan)
    (vouched : ∀ item, plan.lookup item.path = some item → Vouched ws request shared item)
    (h : ws.planChange change (request.hasSnapshot shared) plan shared.index = .ok plan') :
    ∀ item, plan'.lookup item.path = some item → Vouched ws request shared item := by
  obtain ⟨path, handle, pre, applied⟩ := ws.planChange_ok h
  -- A file the plan has not touched is planned from the index.
  have first : ∀ after, plan.lookup path = none →
      Vouched ws request shared (.new ws path (plannedContent plan shared.index path) after) := by
    intro after untouched
    have content : plannedContent plan shared.index path =
        (shared.index.get path.text).map FileEntry.content := by
      rw [plannedContent, untouched]
    refine ⟨content, rfl, fun present => ⟨change, mem, pre.named, ?_⟩⟩
    have fresh := pre.fresh
    simp only [untouched, Option.bind_none, Option.none_or] at fresh
    cases pre.given present with
    | inl snapshot => exact .inl (EditRequest.hasSnapshot_iff.mp snapshot)
    | inr given =>
      right
      cases expected : change.expectedHash with
      | some hash => exact .inl ⟨hash, rfl, fresh hash (by simp [expected])⟩
      | none =>
        cases carried : handle with
        | none => simp [expected, carried] at given
        | some handle =>
          have decoded := pre.decoded
          rw [carried] at decoded
          obtain ⟨input, carries, decodes⟩ := handle_of_editHandle decoded
          exact .inr ⟨input, handle, carries, decodes, fresh handle.contentHash
            (by simp [expected, carried])⟩
  cases applied with
  | put after => exact fun item found => Vouched.putPlan vouched keyed (first after) found
  | rename source text expected target kind valid free absent =>
    refine fun item found => Vouched.putPlan
      (fun item found => Vouched.putPlan vouched keyed (first none) found)
      (keyed.putPlan ws path _ none) (fun untouched => ?_) found
    exact ⟨by rw [PlannedFile.new, absent]; rfl, rfl, fun present => by cases present⟩

theorem vouched_planChanges
    (h : ws.planChanges (request.hasSnapshot shared) shared.index request.changes ∅ = .ok plan) :
    ∀ item, plan.lookup item.path = some item → Vouched ws request shared item := by
  have both := ws.planChanges_invariant (fun plan => Keyed plan ∧
      ∀ item, plan.lookup item.path = some item → Vouched ws request shared item)
    (fun change mem plan plan' inv step => ?_) ?_ h
  · exact both.2
  · obtain ⟨path, handle, -, applied⟩ := ws.planChange_ok step
    exact ⟨applied.keyed inv.1, vouched_planChange mem inv.1 inv.2 step⟩
  · exact ⟨by intro path item found; simp at found, by simp⟩

end

theorem recheckPreconditions_ok {ws : Workspace} {disk : Disk} {planned : List PlannedFile}
    (h : ws.recheckPreconditions disk planned = .ok ()) {item : PlannedFile} (mem : item ∈ planned) :
    ∃ content, disk.readToString item.path = .ok content ∧
      content.map ws.contentHash = item.beforeHash := by
  induction planned with
  | nil => cases mem
  | cons first rest ih =>
    rw [Workspace.recheckPreconditions] at h
    split at h
    · cases h
    · next content read =>
      simp only [bind_eq_ok, require_eq_ok, decide_eq_true_eq] at h
      obtain ⟨-, same, later⟩ := h
      cases List.mem_cons.mp mem with
      | inl here => exact ⟨content, by rw [here, read], by rw [here, same]⟩
      | inr there => exact ih later there

theorem node_putContent {disk disk' : Disk} {fault : Option IoError} {path : RelPath}
    {content : Option Text} {modifiedNs : Nat}
    (h : putContent disk fault path content modifiedNs = .ok disk') {components : List Text}
    (apart : ¬components <+: path.components) : disk'.node components = disk.node components := by
  have other : components ≠ path.components := by
    rintro rfl
    exact apart List.prefix_rfl
  cases fault with
  | some error => cases content <;> cases h
  | none =>
    cases content with
    | none =>
      cases h
      cases components with
      | nil => rfl
      | cons name rest => exact AList.lookup_erase_ne other
    | some content =>
      simp only [putContent, Disk.writeAtomic] at h
      split at h
      · cases h
      · cases h
        rw [Disk.node_setNode, if_neg fun same => other same.1, Disk.node_createDirAll _ apart]

theorem node_writePlan (io : CommitIo) {items : List PlannedFile} {components : List Text}
    (apart : ∀ item ∈ items, ¬components <+: item.path.components) (progress : CommitProgress)
    (world : World) :
    (writePlan io items progress world).2.2.disk.node components = world.disk.node components := by
  induction items generalizing progress world with
  | nil => rfl
  | cons item rest ih =>
    cases writePlan_cons io item rest progress world with
    | inl stops =>
      obtain ⟨-, error, markers, eq⟩ := stops
      rw [eq]
    | inr goes =>
      obtain ⟨-, disk, markers, put, eq⟩ := goes
      rw [eq, ih fun later mem => apart later (List.mem_cons_of_mem _ mem)]
      exact node_putContent put (apart item List.mem_cons_self)

theorem writePlan_append (io : CommitIo) (pre post : List PlannedFile) (progress : CommitProgress)
    (world : World) (goes : ∀ item ∈ pre, io.writes item = true) :
    writePlan io (pre ++ post) progress world =
      writePlan io post (writePlan io pre progress world).2.1
        (writePlan io pre progress world).2.2 := by
  induction pre generalizing progress world with
  | nil => rfl
  | cons item rest ih =>
    have later := fun progress world =>
      ih progress world fun other mem => goes other (List.mem_cons_of_mem _ mem)
    have ok := putContent_isOk world.disk (io.writeFault item.path) item.path item.after
      io.modifiedNs
    rw [← CommitIo.writes, goes item List.mem_cons_self] at ok
    cases outcome : putContent world.disk (io.writeFault item.path) item.path item.after
        io.modifiedNs with
    | error error => rw [outcome] at ok; cases ok
    | ok disk =>
      simp only [List.cons_append, writePlan, World.withLedger, outcome]
      exact later _ _

theorem not_prefix_of_sorted {plan : EditPlan} (keyed : Keyed plan)
    (canonical : ∀ item ∈ sortPlan plan, joinSegments item.path.components = item.path.text)
    {pre post : List PlannedFile} {item : PlannedFile} (split : sortPlan plan = pre ++ item :: post)
    {earlier : PlannedFile} (mem : earlier ∈ pre) :
    ¬item.path.components <+: earlier.path.components := by
  intro below
  have inPlan : earlier ∈ sortPlan plan ∧ item ∈ sortPlan plan := by
    rw [split]; simp [mem]
  have texts := joinSegments_prefix below
  rw [canonical _ inPlan.1, canonical _ inPlan.2] at texts
  have sorted := sorted_sortPlan plan
  rw [split] at sorted
  have le := (List.pairwise_append.mp sorted).2.2 earlier mem item List.mem_cons_self
  have same := le_antisymm le (not_lt.mp (List.IsPrefix.le texts))
  have nodup := nodup_sortPlan keyed
  rw [split, List.map_append, List.map_cons] at nodup
  have apart := (List.nodup_append.mp nodup).2.2 earlier.path (List.mem_map.mpr ⟨earlier, mem, rfl⟩)
    item.path List.mem_cons_self
  exact apart (RelPath.ext same)

theorem canonical_planned {ws : Workspace} {hasSnapshot : Bool} {index : CodeIndex}
    {request : EditRequest} {plan : EditPlan} (canonical : ∀ text ∈ request.named, Canonical text)
    (h : ws.planChanges hasSnapshot index request.changes ∅ = .ok plan) :
    ∀ item ∈ sortPlan plan, joinSegments item.path.components = item.path.text := by
  intro item mem
  have found := (mem_sortPlan (ws.planChanges_keyed h)).mp mem
  have key := (ws.planChanges_keys h).2 item.path
  simp only [found, Option.isSome_some, AList.lookup_empty, Option.isSome_none, Bool.false_eq_true,
    false_or, true_iff] at key
  obtain ⟨text, named, new⟩ := key
  rw [RelPath.components, RelPath.new_text new]
  exact canonical text named

def ReachesCommit (ws : Workspace) (reconcile : ReconcileIo) (request : EditRequest) (world : World)
    (planned : List PlannedFile) (state : ReconciledState) : Prop :=
  (∃ changed, ws.reconcileWith reconcile world.disk world.state = (.ok changed, state)) ∧
    ws.planEdit request world.disk state.shared = .ok (.commit planned)

theorem prepareEdit_of_reaches {ws : Workspace} {reconcile : ReconcileIo} {request : EditRequest}
    {world : World} {planned : List PlannedFile} {state : ReconciledState}
    (reaches : ReachesCommit ws reconcile request world planned state) (io : CommitIo)
    (requestId : Text) :
    (ws.prepareEdit reconcile io requestId request world).2 =
      (ws.commitPlan io planned requestId ⟨world.disk, state⟩).2 := by
  obtain ⟨⟨changed, reconciled⟩, plans⟩ := reaches
  simp only [Workspace.prepareEdit, reconciled, plans]

/-- No commit overwrites content its caller did not vouch for: just before each
write the disk has the content the plan was made from, which is the indexed
content and covered by a precondition of a change that names the file. -/
theorem commit_overwrites_vouched (ws : Workspace) (reconcile : ReconcileIo) (io : CommitIo)
    (request : EditRequest) (world : World) (canonical : ∀ text ∈ request.named, Canonical text)
    (planned : List PlannedFile) (state : ReconciledState)
    (reaches : ReachesCommit ws reconcile request world planned state)
    (pre post : List PlannedFile) (item : PlannedFile) (at_item : planned = pre ++ item :: post) :
    ((∀ earlier ∈ pre, io.writes earlier = true) →
      let reached := writePlan io pre (.new planned) ⟨world.disk, state⟩
      writePlan io planned (.new planned) ⟨world.disk, state⟩ =
          writePlan io (item :: post) reached.2.1 reached.2.2 ∧
        ∃ content, reached.2.2.disk.readToString item.path = .ok content ∧
          content.map ws.contentHash = item.beforeHash) ∧
      Vouched ws request state.shared item := by
  obtain ⟨plan, plans, sorted, checked⟩ := ws.planEdit_ok reaches.2
  have keyed := ws.planChanges_keyed plans
  have inPlanned : item ∈ planned := by rw [at_item]; simp
  have checked := recheckPreconditions_ok (checked planned rfl) inPlanned
  have sorted : planned = sortPlan plan := sorted
  constructor
  · intro goes
    refine ⟨by rw [at_item]; exact writePlan_append io pre (item :: post) _ _ goes, ?_⟩
    obtain ⟨content, read, hash⟩ := checked
    refine ⟨content, ?_, hash⟩
    rw [Disk.readToString_congr, read]
    refine node_writePlan io (fun earlier mem => ?_) _ _
    exact not_prefix_of_sorted keyed (canonical_planned canonical plans)
      (sorted.symm.trans at_item) mem
  · rw [sorted] at inPlanned
    exact vouched_planChanges plans item ((mem_sortPlan keyed).mp inPlanned)

namespace Sample

def editing : EditRequest :=
  ⟨[.create "b".toList "more".toList false none,
      .create "a".toList "new".toList true (some "old".toList)], none, false⟩

end Sample

open Sample in
theorem commit_overwrites_vouched_editing :
    ReachesCommit .plain .calm editing oldFile twoFiles oldFile.state ∧
      Vouched .plain editing oldFile.state.shared ⟨pathA, some "old".toList, some "old".toList,
        some "new".toList⟩ :=
  ⟨⟨⟨[], rfl⟩, rfl⟩, (commit_overwrites_vouched .plain .calm .calm editing oldFile (by decide)
    twoFiles oldFile.state ⟨⟨[], rfl⟩, rfl⟩ [] _ _ rfl).2⟩

end CodeWeave
