import CodeWeave.Defs.Workspace.Edit

namespace CodeWeave

theorem lookup_putPlan (ws : Workspace) (plan : EditPlan) (path : RelPath)
    (before after : Option Text) (key : RelPath) :
    (putPlan ws plan path before after).lookup key =
      if key = path then some ((plan.lookup path).elim (.new ws path before after) fun existing =>
        { existing with after := after })
      else plan.lookup key := by
  by_cases same : key = path
  · subst same
    rw [putPlan]
    cases plan.lookup key <;> simp
  · rw [putPlan]
    cases plan.lookup path <;> simp [same, AList.lookup_insert_ne same]

/-- What one kind of change does to a plan: it puts the change's own path and,
for a rename, a target that neither the plan nor the index has. -/
inductive Applied (ws : Workspace) (change : Change) (path : RelPath) (before : Option Text)
    (plan : EditPlan) (index : CodeIndex) : EditPlan → Prop
  | put (after : Option Text) (kind : ∀ source target expected, change ≠ .rename source target expected) :
      Applied ws change path before plan index (putPlan ws plan path before after)
  | rename (source text : Text) (expected : Option ContentHash) (target : RelPath)
      (kind : change = .rename source text expected) (valid : RelPath.new text = .ok target)
      (free : (plan.lookup target).bind PlannedFile.after = none)
      (absent : index.get target.text = none) :
      Applied ws change path before plan index
        (putPlan ws (putPlan ws plan path before none) target none before)

namespace Workspace

variable (ws : Workspace)

theorem applied_of_applyChange {change : Change} {path : RelPath}
    {handle : Option RangeHandleWire} {before : Option Text} {plan plan' : EditPlan}
    {index : CodeIndex}
    (h : ws.applyChange change path handle before plan index = .ok plan') :
    Applied ws change path before plan index plan' := by
  cases change with
  | create source content overwrite expected =>
    simp only [applyChange, bind_eq_ok] at h
    obtain ⟨-, -, h⟩ := h
    cases h
    exact .put _ (by simp)
  | replace source oldText newText count expected range =>
    simp only [applyChange, bind_eq_ok, okOr_eq_ok] at h
    obtain ⟨current, rfl, after, -, h⟩ := h
    cases h
    exact .put _ (by simp)
  | replaceRange source range newText =>
    simp only [applyChange, bind_eq_ok, okOr_eq_ok] at h
    obtain ⟨found, -, current, rfl, bounds, -, h⟩ := h
    cases h
    exact .put _ (by simp)
  | insert source content anchorSymbol position expected =>
    simp only [applyChange, bind_eq_ok, okOr_eq_ok] at h
    obtain ⟨current, rfl, symbol, -, h⟩ := h
    cases h
    exact .put _ (by simp)
  | delete source expected =>
    simp only [applyChange, bind_eq_ok, okOr_eq_ok] at h
    obtain ⟨current, rfl, h⟩ := h
    cases h
    exact .put _ (by simp)
  | rename source text expected =>
    simp only [applyChange, bind_eq_ok, okOr_eq_ok, require_eq_ok] at h
    obtain ⟨target, valid, current, rfl, -, free, h⟩ := h
    cases h
    simp only [Bool.not_eq_true', Bool.or_eq_false_iff, Option.isSome_eq_false_iff,
      Option.isNone_iff_eq_none] at free
    exact .rename source text expected target rfl valid free.1 free.2

/-- What a change must carry for the file it names. -/
structure Precondition (change : Change) (hasSnapshot : Bool) (path : RelPath)
    (handle : Option RangeHandleWire) (plan : EditPlan) (index : CodeIndex) : Prop where
  named : RelPath.new change.path = .ok path
  decoded : ws.editHandle change path.text = .ok handle
  given : (plannedContent plan index path).isSome → hasSnapshot = true ∨
    (change.expectedHash.or (handle.map RangeHandleWire.contentHash)).isSome
  fresh : ∀ hash ∈ change.expectedHash.or (handle.map RangeHandleWire.contentHash),
    ((plan.lookup path).bind PlannedFile.beforeHash).or
      ((plannedContent plan index path).map ws.contentHash) = some hash

theorem planChange_ok {change : Change} {hasSnapshot : Bool} {plan plan' : EditPlan}
    {index : CodeIndex} (h : ws.planChange change hasSnapshot plan index = .ok plan') :
    ∃ path handle, ws.Precondition change hasSnapshot path handle plan index ∧
      Applied ws change path (plannedContent plan index path) plan index plan' := by
  simp only [planChange, bind_eq_ok, require_eq_ok] at h
  obtain ⟨path, named, handle, decoded, -, given, -, fresh, applied⟩ := h
  refine ⟨path, handle, ⟨named, decoded, ?_, ?_⟩, ws.applied_of_applyChange applied⟩
  · intro present
    by_contra nothing
    simp only [not_or, Bool.not_eq_true, Option.isSome_eq_false_iff, Option.isNone_iff_eq_none,
      Option.or_eq_none_iff] at nothing
    simp [present, nothing] at given
  · intro hash mem
    simp only [Option.all_eq_true] at fresh
    simpa using fresh hash mem

theorem applyChange_of_planChange {change : Change} {hasSnapshot : Bool} {plan plan' : EditPlan}
    {index : CodeIndex} {path : RelPath} {handle : Option RangeHandleWire}
    (named : RelPath.new change.path = .ok path)
    (decoded : ws.editHandle change path.text = .ok handle)
    (h : ws.planChange change hasSnapshot plan index = .ok plan') :
    ws.applyChange change path handle (plannedContent plan index path) plan index = .ok plan' := by
  simp only [planChange, bind_eq_ok, require_eq_ok] at h
  obtain ⟨other, named', handle', decoded', -, -, -, -, applied⟩ := h
  obtain rfl := Except.ok.inj (named.symm.trans named')
  obtain rfl := Except.ok.inj (decoded.symm.trans decoded')
  exact applied

theorem planChange_of_precondition {change : Change} {hasSnapshot : Bool} {plan : EditPlan}
    {index : CodeIndex} {path : RelPath} {handle : Option RangeHandleWire} {content : Text}
    (met : ws.Precondition change hasSnapshot path handle plan index)
    (current : plannedContent plan index path = some content) :
    ws.planChange change hasSnapshot plan index =
      ws.applyChange change path handle (some content) plan index := by
  have required : (!((!change.isCreate || (some content).isSome) && !hasSnapshot &&
      change.expectedHash.isNone && (handle.map RangeHandleWire.contentHash).isNone)) = true := by
    have given := met.given (by rw [current]; rfl)
    simpa [or_assoc] using given
  have fresh := met.fresh
  rw [current] at fresh
  have hashed : ((change.expectedHash.or (handle.map RangeHandleWire.contentHash)).all fun hash =>
      ((plan.lookup path).bind PlannedFile.beforeHash).or
        ((some content).map ws.contentHash) = some hash) = true :=
    (Option.all_eq_true _ _).mpr fun hash mem => decide_eq_true (fresh hash mem)
  simp only [planChange, met.named, bind, Except.bind, met.decoded, current, require, required,
    hashed, if_true]

theorem planChange_current {change : Change} {hasSnapshot : Bool} {plan : EditPlan}
    {index : CodeIndex} {path : RelPath} {handle : Option RangeHandleWire} {content : Text}
    (named : RelPath.new change.path = .ok path)
    (decoded : ws.editHandle change path.text = .ok handle)
    (given : change.expectedHash.or (handle.map RangeHandleWire.contentHash) =
      some (ws.contentHash content))
    (unplanned : plan.lookup path = none)
    (indexed : (index.get path.text).map FileEntry.content = some content) :
    ws.planChange change hasSnapshot plan index =
      ws.applyChange change path handle (some content) plan index := by
  have current : plannedContent plan index path = some content := by
    simp only [plannedContent, unplanned, indexed]
  refine ws.planChange_of_precondition ⟨named, decoded, fun _ => .inr ?_, ?_⟩ current
  · rw [given]
    rfl
  · intro hash mem
    rw [given, Option.mem_some_iff] at mem
    rw [unplanned, current, ← mem]
    rfl

theorem planChanges_invariant (Inv : EditPlan → Prop) {hasSnapshot : Bool} {index : CodeIndex}
    {changes : List Change}
    (step : ∀ change ∈ changes, ∀ plan plan', Inv plan →
      ws.planChange change hasSnapshot plan index = .ok plan' → Inv plan')
    {plan plan' : EditPlan} (start : Inv plan)
    (h : ws.planChanges hasSnapshot index changes plan = .ok plan') : Inv plan' := by
  induction changes generalizing plan with
  | nil => cases h; exact start
  | cons change rest ih =>
    simp only [planChanges, bind_eq_ok] at h
    obtain ⟨next, first, rest⟩ := h
    refine ih (fun later mem => step later (List.mem_cons_of_mem _ mem)) ?_ rest
    exact step change List.mem_cons_self plan next start first

end Workspace

def Keyed (plan : EditPlan) : Prop := ∀ path item, plan.lookup path = some item → item.path = path

theorem Keyed.putPlan {plan : EditPlan} (keyed : Keyed plan) (ws : Workspace) (path : RelPath)
    (before after : Option Text) : Keyed (putPlan ws plan path before after) := by
  intro key item found
  rw [lookup_putPlan] at found
  split at found
  · next same =>
    cases existing : plan.lookup path with
    | none => simp only [existing, Option.elim, Option.some.injEq] at found; rw [← found, same]; rfl
    | some old =>
      simp only [existing, Option.elim, Option.some.injEq] at found
      rw [← found, same]
      exact keyed path old existing
  · exact keyed key item found

theorem Applied.keyed {ws : Workspace} {change : Change} {path : RelPath} {before : Option Text}
    {plan plan' : EditPlan} {index : CodeIndex} (h : Applied ws change path before plan index plan')
    (keyed : Keyed plan) : Keyed plan' := by
  cases h with
  | put after => exact keyed.putPlan ws path before after
  | rename source text expected target =>
    exact (keyed.putPlan ws path before none).putPlan ws target none before

theorem Workspace.planChanges_keyed (ws : Workspace) {hasSnapshot : Bool} {index : CodeIndex}
    {changes : List Change} {plan : EditPlan}
    (h : ws.planChanges hasSnapshot index changes ∅ = .ok plan) : Keyed plan := by
  refine ws.planChanges_invariant Keyed (fun change _ plan plan' keyed step => ?_) ?_ h
  · obtain ⟨path, handle, -, applied⟩ := ws.planChange_ok step
    exact applied.keyed keyed
  · intro path item found
    simp at found

theorem mem_sortPlan {plan : EditPlan} (keyed : Keyed plan) {item : PlannedFile} :
    item ∈ sortPlan plan ↔ plan.lookup item.path = some item := by
  rw [sortPlan, List.mem_insertionSort, List.mem_map]
  constructor
  · rintro ⟨⟨path, item⟩, mem, rfl⟩
    have found := AList.mem_lookup_iff.mpr mem
    rwa [keyed path item found]
  · intro found
    exact ⟨⟨item.path, item⟩, AList.mem_lookup_iff.mp found, rfl⟩

theorem nodup_sortPlan {plan : EditPlan} (keyed : Keyed plan) :
    ((sortPlan plan).map PlannedFile.path).Nodup := by
  have paths : (plan.entries.map Sigma.snd).map PlannedFile.path = plan.keys := by
    rw [List.map_map, AList.keys, List.keys]
    refine List.map_congr_left fun entry mem => ?_
    exact keyed entry.1 entry.2 (AList.mem_lookup_iff.mpr mem)
  rw [sortPlan, ((List.perm_insertionSort _ _).map PlannedFile.path).nodup_iff, paths]
  exact plan.keys_nodup

theorem sorted_sortPlan (plan : EditPlan) :
    (sortPlan plan).Pairwise fun first second => first.path.text ≤ second.path.text := by
  have total : Std.Total fun (first second : PlannedFile) => first.path.text ≤ second.path.text :=
    ⟨fun first second => le_total first.path.text second.path.text⟩
  have trans : IsTrans PlannedFile fun first second => first.path.text ≤ second.path.text :=
    ⟨fun _ _ _ first second => le_trans first second⟩
  exact List.pairwise_insertionSort _ _

def EditRequest.hasSnapshot (request : EditRequest) (shared : Reconciled) : Bool :=
  request.snapshotId.isSome && request.snapshotId.all fun expected => expected = shared.snapshotId

theorem EditRequest.hasSnapshot_iff {request : EditRequest} {shared : Reconciled} :
    request.hasSnapshot shared = true ↔ request.snapshotId = some shared.snapshotId := by
  cases h : request.snapshotId <;> simp [hasSnapshot, h]

theorem Workspace.planEdit_ok (ws : Workspace) {request : EditRequest} {disk : Disk}
    {shared : Reconciled} {edit : PlannedEdit} (h : ws.planEdit request disk shared = .ok edit) :
    ∃ plan, ws.planChanges (request.hasSnapshot shared) shared.index request.changes ∅ = .ok plan ∧
      edit.planned = sortPlan plan ∧
      ∀ planned, edit = .commit planned → ws.recheckPreconditions disk planned = .ok () := by
  simp only [planEdit, bind_eq_ok] at h
  obtain ⟨-, -, -, -, -, -, plan, planned, -, -, h⟩ := h
  refine ⟨plan, planned, ?_⟩
  split at h
  · cases h
    exact ⟨rfl, by simp⟩
  · simp only [bind_eq_ok] at h
    obtain ⟨_, checked, h⟩ := h
    cases h
    refine ⟨rfl, ?_⟩
    rintro planned ⟨⟩
    exact checked

end CodeWeave
