import CodeWeave.Defs.Workspace.PathSpelling

namespace CodeWeave

abbrev Files := RelPath → Option Text

def Files.set (files : Files) (path : RelPath) (content : Option Text) : Files :=
  fun other => if other = path then content else files other

def indexedFiles (index : CodeIndex) : Files :=
  fun path => (index.get path.text).map FileEntry.content

def patchedFiles (planned : List PlannedFile) (files : Files) : Files := fun path =>
  match planned.find? fun item => item.path = path with
  | some item => item.after
  | none => files path

def insertedText (ws : Workspace) (path : RelPath) (current content anchorSymbol : Text)
    (position : InsertPosition) : Option Text := do
  let symbol ← (ws.extractSymbols path.text current).find? fun item => item.name = anchorSymbol
  let offset := lineOffset current (insertLine position symbol)
  some (replaceRange current offset offset (normalizeLineEndingsForContent current content))

def rangeText (current newText : Text) (handle : RangeHandleWire) : Option Text := do
  let (start, stop) ← (lineRange current handle.startLine handle.endLine).toOption
  some (replaceRange current start stop (preserveTerminalLineEnding (slice current start stop)
    (normalizeLineEndingsForContent current newText)))

/-- What a change means on its own: what it makes of the files it finds. -/
def Workspace.applyAlone (ws : Workspace) (change : Change) (files : Files) : Option Files := do
  let path ← (RelPath.new change.path).toOption
  let handle ← (ws.editHandle change path.text).toOption
  match change with
  | .create _ content overwrite _ =>
    match files path with
    | none => some (files.set path (some content))
    | some current =>
      if overwrite then
        some (files.set path (some (normalizeLineEndingsForContent current content)))
      else none
  | .replace _ oldText newText expected _ _ => do
    let current ← files path
    let after ← (replacedText current oldText newText expected path handle).toOption
    some (files.set path (some after))
  | .replaceRange _ _ newText => do
    let current ← files path
    let after ← rangeText current newText (← handle)
    some (files.set path (some after))
  | .insert _ content anchorSymbol position _ => do
    let current ← files path
    let after ← insertedText ws path current content anchorSymbol position
    some (files.set path (some after))
  | .delete _ _ => do
    let _ ← files path
    some (files.set path none)
  | .rename _ target _ => do
    let target ← (RelPath.new target).toOption
    let current ← files path
    if files target = none then some ((files.set path none).set target (some current)) else none

def Workspace.applyInTurn (ws : Workspace) (changes : List Change) (files : Files) : Option Files :=
  changes.foldlM (fun files change => ws.applyAlone change files) files

theorem plannedContent_putPlan (ws : Workspace) (plan : EditPlan) (index : CodeIndex)
    (path : RelPath) (before after : Option Text) :
    plannedContent (putPlan ws plan path before after) index =
      Files.set (plannedContent plan index) path after := by
  funext key
  by_cases same : key = path
  · rw [plannedContent, lookup_putPlan, Files.set, if_pos same, if_pos same]
    cases plan.lookup path <;> rfl
  · rw [plannedContent, lookup_putPlan, Files.set, if_neg same, if_neg same, plannedContent]

theorem plannedContent_empty (index : CodeIndex) : plannedContent ∅ index = indexedFiles index := by
  funext path
  rw [plannedContent, AList.lookup_empty, indexedFiles]

theorem patchedFiles_sortPlan {plan : EditPlan} (keyed : Keyed plan) (index : CodeIndex) :
    patchedFiles (sortPlan plan) (indexedFiles index) = plannedContent plan index := by
  funext path
  rw [patchedFiles, plannedContent]
  cases found : (sortPlan plan).find? fun item => item.path = path with
  | none =>
    have absent : plan.lookup path = none := by
      cases entry : plan.lookup path with
      | none => rfl
      | some item =>
        have here := keyed path item entry
        have mem : item ∈ sortPlan plan := (mem_sortPlan keyed).mpr (by rw [here, entry])
        have other := List.find?_eq_none.mp found item mem
        exact absurd here (by simpa using other)
    rw [absent, indexedFiles]
  | some item =>
    have here : item.path = path := by simpa using List.find?_some found
    have entry := (mem_sortPlan keyed).mp (List.mem_of_find?_eq_some found)
    rw [here] at entry
    rw [entry]

def Original (ws : Workspace) (index : CodeIndex) (plan : EditPlan) : Prop :=
  ∀ path item, plan.lookup path = some item →
    item.before = indexedFiles index path ∧ item.beforeHash = item.before.map ws.contentHash

section

variable {ws : Workspace} {index : CodeIndex} {plan plan' : EditPlan} {change : Change}
  {path : RelPath} {handle : Option RangeHandleWire} {hasSnapshot : Bool}

theorem Original.putPlan (original : Original ws index plan) (before after : Option Text)
    (first : plan.lookup path = none → before = indexedFiles index path) :
    Original ws index (putPlan ws plan path before after) := by
  intro key item found
  rw [lookup_putPlan] at found
  split at found
  · next same =>
    subst same
    cases entry : plan.lookup key with
    | none =>
      simp only [entry, Option.elim, Option.some.injEq] at found
      rw [← found]
      exact ⟨first entry, rfl⟩
    | some old =>
      simp only [entry, Option.elim, Option.some.injEq] at found
      rw [← found]
      exact original key old entry
  · exact original key item found

theorem plannedContent_of_absent (absent : plan.lookup path = none) :
    plannedContent plan index path = indexedFiles index path := by
  rw [plannedContent, absent, indexedFiles]

theorem Applied.original (original : Original ws index plan)
    (applied : Applied ws change path (plannedContent plan index path) plan index plan') :
    Original ws index plan' := by
  cases applied with
  | put after kind => exact original.putPlan _ _ plannedContent_of_absent
  | rename source text expected target kind valid free absent =>
    refine (original.putPlan _ _ plannedContent_of_absent).putPlan _ _ fun _ => ?_
    rw [indexedFiles, absent]
    rfl

theorem plannedContent_target {target : RelPath}
    (free : (plan.lookup target).bind PlannedFile.after = none)
    (absent : index.get target.text = none) : plannedContent plan index target = none := by
  rw [plannedContent]
  cases entry : plan.lookup target with
  | none => rw [absent]; rfl
  | some item => simpa [entry] using free

theorem applyAlone_of_applyChange (named : RelPath.new change.path = .ok path)
    (decoded : ws.editHandle change path.text = .ok handle)
    (h : ws.applyChange change path handle (plannedContent plan index path) plan index = .ok plan') :
    ws.applyAlone change (plannedContent plan index) = some (plannedContent plan' index) := by
  rw [Workspace.applyAlone, named, Except.toOption, Option.bind_eq_bind, Option.bind_some, decoded]
  cases change with
  | create source content overwrite expected =>
    simp only [Workspace.applyChange, bind_eq_ok, require_eq_ok] at h
    obtain ⟨-, free, h⟩ := h
    cases h
    simp only [Except.toOption, Option.bind_eq_bind, Option.bind_some, plannedContent_putPlan]
    cases before : plannedContent plan index path with
    | none => rfl
    | some current =>
      have overwrites : overwrite = true := by simpa [before] using free
      simp only [overwrites, if_true]
  | replace source oldText newText count expected range =>
    simp only [Workspace.applyChange, bind_eq_ok, okOr_eq_ok] at h
    obtain ⟨current, before, after, replaced, h⟩ := h
    cases h
    simp only [Except.toOption, Option.bind_eq_bind, Option.bind_some, plannedContent_putPlan,
      before, replaced]
  | replaceRange source range newText =>
    simp only [Workspace.applyChange, bind_eq_ok, okOr_eq_ok] at h
    obtain ⟨found, rfl, current, before, bounds, cut, h⟩ := h
    cases h
    simp only [Except.toOption, Option.bind_eq_bind, Option.bind_some, plannedContent_putPlan,
      before, rangeText, cut]
  | insert source content anchorSymbol position expected =>
    simp only [Workspace.applyChange, bind_eq_ok, okOr_eq_ok] at h
    obtain ⟨current, before, symbol, found, h⟩ := h
    cases h
    simp only [Except.toOption, Option.bind_eq_bind, Option.bind_some, plannedContent_putPlan,
      before, insertedText, found]
  | delete source expected =>
    simp only [Workspace.applyChange, bind_eq_ok, okOr_eq_ok] at h
    obtain ⟨current, before, h⟩ := h
    cases h
    simp only [Except.toOption, Option.bind_eq_bind, Option.bind_some, plannedContent_putPlan, before]
  | rename source text expected =>
    simp only [Workspace.applyChange, bind_eq_ok, okOr_eq_ok, require_eq_ok, Bool.not_eq_true',
      Bool.or_eq_false_iff, Option.isSome_eq_false_iff, Option.isNone_iff_eq_none] at h
    obtain ⟨target, valid, current, before, -, ⟨free, absent⟩, h⟩ := h
    cases h
    simp only [Except.toOption, Option.bind_eq_bind, Option.bind_some, plannedContent_putPlan,
      valid, before, plannedContent_target free absent, if_true]

theorem applyAlone_of_planChange (h : ws.planChange change hasSnapshot plan index = .ok plan') :
    ws.applyAlone change (plannedContent plan index) = some (plannedContent plan' index) := by
  simp only [Workspace.planChange, bind_eq_ok] at h
  obtain ⟨path, named, handle, decoded, -, -, -, -, applied⟩ := h
  exact applyAlone_of_applyChange named decoded applied

theorem applyInTurn_of_planChanges {changes : List Change}
    (h : ws.planChanges hasSnapshot index changes plan = .ok plan') :
    ws.applyInTurn changes (plannedContent plan index) = some (plannedContent plan' index) := by
  induction changes generalizing plan with
  | nil => cases h; rfl
  | cons change rest ih =>
    simp only [Workspace.planChanges, bind_eq_ok] at h
    obtain ⟨next, first, later⟩ := h
    rw [Workspace.applyInTurn, List.foldlM_cons, applyAlone_of_planChange first]
    exact ih later

theorem original_planChanges {changes : List Change}
    (h : ws.planChanges hasSnapshot index changes ∅ = .ok plan) : Original ws index plan := by
  refine ws.planChanges_invariant (Original ws index) (fun change _ plan plan' original step => ?_)
    ?_ h
  · obtain ⟨path, handle, -, applied⟩ := ws.planChange_ok step
    exact applied.original original
  · intro path item found
    simp at found

end

/-- An accepted plan makes of the indexed files what its changes make of them one
after another, and each entry keeps the file the index held. -/
theorem planEdit_in_turn (ws : Workspace) (request : EditRequest) (disk : Disk)
    (shared : Reconciled) (edit : PlannedEdit)
    (accepted : ws.planEdit request disk shared = .ok edit) :
    ws.applyInTurn request.changes (indexedFiles shared.index) =
        some (patchedFiles edit.planned (indexedFiles shared.index)) ∧
      (∀ item ∈ edit.planned, item.before = indexedFiles shared.index item.path ∧
        item.beforeHash = (indexedFiles shared.index item.path).map ws.contentHash) ∧
      ∀ item ∈ edit.planned, ∃ text ∈ request.named, RelPath.new text = .ok item.path := by
  obtain ⟨plan, planned, sorted, -⟩ := ws.planEdit_ok accepted
  have keyed := ws.planChanges_keyed planned
  rw [sorted]
  refine ⟨?_, fun item mem => ?_, fun item mem => ?_⟩
  · rw [patchedFiles_sortPlan keyed, ← plannedContent_empty]
    exact applyInTurn_of_planChanges planned
  · have kept := original_planChanges planned item.path item ((mem_sortPlan keyed).mp mem)
    rw [← kept.1]
    exact ⟨rfl, kept.2⟩
  · have listed : (plan.lookup item.path).isSome := by rw [(mem_sortPlan keyed).mp mem]; rfl
    have named := ((ws.planChanges_keys planned).2 item.path).mp listed
    simpa [EditRequest.named] using named

namespace Sample

def moving : EditRequest :=
  ⟨[.rename "a".toList "c".toList (some "old".toList), .create "a".toList "new".toList false none,
      .create "c".toList "older".toList true (some "old".toList)], none, true⟩

def renamedAway : World := World.opened .plain (Disk.holding [(["a".toList], "old".toList)])

end Sample

open Sample in
theorem planEdit_in_turn_moving :
    ∃ edit, Workspace.plain.planEdit moving renamedAway.disk renamedAway.state.shared = .ok edit ∧
      edit.planned.map PlannedFile.after = [some "new".toList, some "older".toList] ∧
      Workspace.plain.applyInTurn moving.changes (indexedFiles renamedAway.state.shared.index) =
        some (patchedFiles edit.planned (indexedFiles renamedAway.state.shared.index)) :=
  ⟨_, rfl, by decide, (planEdit_in_turn .plain moving renamedAway.disk renamedAway.state.shared
    _ rfl).1⟩

end CodeWeave
