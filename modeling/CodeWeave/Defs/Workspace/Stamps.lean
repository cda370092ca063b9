import CodeWeave.Defs.Workspace.Publication

namespace CodeWeave

open Runs

structure Names (ws : Workspace) (published : Reconciled × List Reconciled) : Prop where
  sound : Sound ws published.1
  seen : ∀ shared ∈ published.2, Named ws shared

/-- No two states seen bear one stamp for different files or statuses, and no
generation after the current one has been given out. -/
structure Identifies (ws : Workspace) (published : Reconciled × List Reconciled) : Prop where
  sound : Sound ws published.1
  current : published.1 ∈ published.2
  bounded : ∀ shared ∈ published.2, shared.generation ≤ published.1.generation
  settled : ∀ shared ∈ published.2, shared.generation = published.1.generation →
    shared.index.hashAt = published.1.index.hashAt
  unique : ∀ first ∈ published.2, ∀ second ∈ published.2, first.stamp = second.stamp →
    first.index.hashAt = second.index.hashAt ∧ first.repoStatus = second.repoStatus

/-- A status refresh finds the status that the states seen under the stamp it is
about to give have. -/
def FreshStamp (ws : Workspace) (world : World) (action : Action) : Prop :=
  ∀ status, action.statusRefresh = some status → ∀ shared ∈ world.state.seen,
    shared.generation = world.state.shared.generation →
    shared.snapshotId = world.state.shared.index.snapshotId ws status.head →
    shared.repoStatus = status

def StampGuard (ws : Workspace) (world : World) (action : Action) : Prop :=
  SteadyFailure ws world action ∧ FreshStamp ws world action

section

variable {ws : Workspace} {world : World} {action : Action}
  {old new : Reconciled × List Reconciled}

theorem Publish.sound (publish : Publish ws world action old new) : Sound ws new.1 := by
  cases publish with
  | kept sound kept => exact sound
  | renewed sound generation => exact sound
  | restamped sound asked restamped => exact sound

theorem Publish.seen (publish : Publish ws world action old new) : new.2 = old.2 ++ [new.1] := by
  cases publish <;> rfl

theorem Names.publish (names : Names ws old) (publish : Publish ws world action old new) :
    Names ws new := by
  refine ⟨publish.sound, fun shared mem => ?_⟩
  rw [publish.seen] at mem
  cases List.mem_append.mp mem with
  | inl before => exact names.seen shared before
  | inr now =>
    rw [List.mem_singleton.mp now]
    exact publish.sound.named

theorem Identifies.snoc {old : Reconciled} {seen : List Reconciled} {new : Reconciled}
    (identifies : Identifies ws (old, seen)) (sound : Sound ws new)
    (later : old.generation ≤ new.generation)
    (settled : new.generation = old.generation → new.index.hashAt = old.index.hashAt)
    (unique : ∀ shared ∈ seen, shared.stamp = new.stamp →
      shared.index.hashAt = new.index.hashAt ∧ shared.repoStatus = new.repoStatus) :
    Identifies ws (new, seen ++ [new]) := by
  have cases_seen : ∀ {shared}, shared ∈ seen ++ [new] → shared ∈ seen ∨ shared = new := by
    intro shared mem
    simpa using mem
  constructor
  · exact sound
  · simp
  · intro shared mem
    cases cases_seen mem with
    | inl before => exact Nat.le_trans (identifies.bounded shared before) later
    | inr now => rw [now]
  · intro shared mem same
    simp only at same ⊢
    cases cases_seen mem with
    | inl before =>
      have bounded : shared.generation ≤ old.generation := identifies.bounded shared before
      have here : shared.generation = old.generation := by omega
      rw [settled (by omega)]
      exact identifies.settled shared before here
    | inr now => rw [now]
  · intro first inFirst second inSecond same
    cases cases_seen inFirst with
    | inl firstBefore =>
      cases cases_seen inSecond with
      | inl secondBefore => exact identifies.unique first firstBefore second secondBefore same
      | inr secondNow =>
        rw [secondNow] at same ⊢
        exact unique first firstBefore same
    | inr firstNow =>
      cases cases_seen inSecond with
      | inl secondBefore =>
        rw [firstNow] at same ⊢
        have both := unique second secondBefore same.symm
        exact ⟨both.1.symm, both.2.symm⟩
      | inr secondNow =>
        rw [firstNow, secondNow]
        exact ⟨rfl, rfl⟩

theorem Identifies.publish (fresh : FreshStamp ws world action) (identifies : Identifies ws old)
    (publish : Publish ws world action old new) : Identifies ws new := by
  cases publish with
  | @kept old new seen sound kept =>
    refine identifies.snoc sound (by rw [kept.generation]) (fun _ => kept.hashes) ?_
    intro shared mem same
    have stamp : new.stamp = old.stamp := by
      rw [Reconciled.stamp, Reconciled.stamp, kept.generation, kept.snapshotId]
    rw [kept.hashes, kept.repoStatus]
    exact identifies.unique shared mem old identifies.current (same.trans stamp)
  | @renewed old new seen sound generation =>
    refine identifies.snoc sound (by omega) (fun same => by omega) ?_
    intro shared mem same
    have bounded : shared.generation ≤ old.generation := identifies.bounded shared mem
    have equal : shared.generation = new.generation := congrArg Stamp.generation same
    omega
  | @restamped new status sound asked restamped =>
    refine identifies.snoc sound (by rw [restamped.generation]) (fun _ => restamped.hashes) ?_
    intro shared mem same
    have generation : shared.generation = world.state.shared.generation :=
      (congrArg Stamp.generation same).trans restamped.generation
    have snapshotId : shared.snapshotId = world.state.shared.index.snapshotId ws status.head :=
      (congrArg Stamp.snapshotId same).trans restamped.snapshotId
    rw [restamped.hashes, restamped.repoStatus]
    exact ⟨identifies.settled shared mem generation,
      fresh status asked shared mem generation snapshotId⟩

theorem Publishes.preserves {Inv : Reconciled × List Reconciled → Prop}
    (step : ∀ {old new}, Inv old → Publish ws world action old new → Inv new)
    (publishes : Publishes ws world action old new) (inv : Inv old) : Inv new := by
  induction publishes with
  | refl => exact inv
  | tail _ publish ih => exact step ih publish

theorem sound_opened {start : World} (opened : ws.Opened start) :
    Sound ws start.state.shared ∧ start.state.seen = [start.state.shared] := by
  obtain ⟨disk, io, cache, index, status, scan, state⟩ := opened
  rw [state]
  refine ⟨⟨.of_recompute ws _, ?_⟩, rfl⟩
  cases status <;> exact ws.tallied_scanWorkspace scan

end

section

variable {ws : Workspace} {start later : World} {actions : List Action}

/-- Every state a reader can see is named by its snapshot id, as long as no
failing refresh has moved the index. -/
theorem seen_named_of_steady (opened : ws.Opened start)
    (run : Run (Along (SteadyFailure ws) ws.Step) start actions later) :
    ∀ shared ∈ later.state.seen, Named ws shared := by
  obtain ⟨sound, seen⟩ := sound_opened opened
  have initially : Names ws start.state.published := by
    refine ⟨sound, fun shared mem => ?_⟩
    rw [ReconciledState.published, seen] at mem
    rw [List.mem_singleton.mp mem]
    exact sound.named
  have names : Names ws later.state.published := by
    refine run.invariant_along (fun world => Names ws world.state.published) ?_ initially
    intro world action after names steady step
    rw [step]
    exact (publishes_act action names.sound steady).preserves Names.publish names
  exact names.seen

end

namespace Sample

def oldPair : World :=
  .opened .plain (Disk.holding [(["a".toList], "old".toList), (["b".toList], "old".toList)])

def newPair : Disk :=
  Disk.holding [(["a".toList], "new".toList), (["b".toList], "new".toList)]

def observedPair : World :=
  Workspace.plain.act (.observe [.below "a".toList, .below "b".toList])
    (Workspace.plain.act (.disk newPair) oldPair)

def unreadableB : ReconcileIo :=
  { ReconcileIo.calm with
    faults := fun components =>
      if components = ["b".toList] then some ⟨.other, "Input/output error"⟩ else none }

def newHead : RepoStatus := { RepoStatus.default with head := "c1".toList }

def newHeadPair : World := Workspace.plain.act (.refreshStatus (.ok newHead)) observedPair

def newHeadAgain : World := Workspace.plain.act (.refreshStatus (.ok newHead)) newHeadPair

def dirtyA : RepoStatus := { RepoStatus.default with dirtyFiles := ["a".toList] }

theorem opened_oldPair : Workspace.plain.Opened oldPair := Workspace.plain.opened_opened (by decide)

theorem run_observedPair (Guard : World → Action → Prop)
    (observes : Guard (Workspace.plain.act (.disk newPair) oldPair)
      (.observe [.below "a".toList, .below "b".toList]))
    (changes : Guard oldPair (.disk newPair)) :
    Run (Along Guard Workspace.plain.Step) oldPair
      [.disk newPair, .observe [.below "a".toList, .below "b".toList]] observedPair :=
  .snoc (.snoc (.nil oldPair) ⟨changes, rfl⟩) ⟨observes, rfl⟩

end Sample

open Sample in
theorem seen_named_of_steady_calm :
    Named .plain (Workspace.plain.act (.reconcile .calm) observedPair).state.shared := by
  have steady : SteadyFailure .plain observedPair (.reconcile .calm) := by
    intro _ fails
    exact absurd (by decide) fails
  exact seen_named_of_steady opened_oldPair
    (.snoc (run_observedPair _ trivial trivial) ⟨steady, rfl⟩) _
    (List.mem_append_right _ (List.mem_singleton_self _))

-- The new `a` is in the index before `b` fails to be read, and the snapshot id is
-- that of the old `a`.
open Sample in
theorem seen_unnamed :
    ¬∀ start actions later, Workspace.plain.Opened start →
      Run Workspace.plain.Step start actions later →
      ∀ shared ∈ later.state.seen, Named .plain shared := by
  intro all
  have observed := (run_observedPair (fun _ _ => True) trivial trivial).forget
  have run := observed.snoc (l := .reconcile unreadableB) rfl
  have named := all _ _ _ opened_oldPair run
  revert named
  decide +kernel

section

variable {ws : Workspace} {start later : World} {actions : List Action}

/-- Equal stamps stand for equal files and repository statuses, as long as no
failing refresh has moved the index and no status refresh has given out a stamp
that was seen with another status. -/
theorem stamp_identifies (opened : ws.Opened start)
    (run : Run (Along (StampGuard ws) ws.Step) start actions later) :
    ∀ first ∈ later.state.seen, ∀ second ∈ later.state.seen, first.stamp = second.stamp →
      first.index.hashAt = second.index.hashAt ∧ first.repoStatus = second.repoStatus := by
  obtain ⟨sound, seen⟩ := sound_opened opened
  have initially : Identifies ws start.state.published := by
    have only : ∀ shared ∈ start.state.seen, shared = start.state.shared := by
      rw [seen]
      exact fun shared mem => List.mem_singleton.mp mem
    constructor
    · exact sound
    · simp [ReconciledState.published, seen]
    · exact fun shared mem => by rw [only shared mem]; exact Nat.le_refl _
    · exact fun shared mem _ => by rw [only shared mem]; rfl
    · exact fun first inFirst second inSecond _ => by
        rw [only first inFirst, only second inSecond]
        exact ⟨rfl, rfl⟩
  have identifies : Identifies ws later.state.published := by
    refine run.invariant_along (fun world => Identifies ws world.state.published) ?_ initially
    intro world action after identifies guard step
    rw [step]
    exact (publishes_act action identifies.sound guard.1).preserves
      (Identifies.publish guard.2) identifies
  exact identifies.unique

end

open Sample in
theorem stamp_identifies_newHead :
    newHeadAgain.state.shared.index.hashAt = newHeadPair.state.shared.index.hashAt ∧
      newHeadAgain.state.shared.repoStatus = newHeadPair.state.shared.repoStatus := by
  have untouched : ∀ world disk, StampGuard .plain world (.disk disk) :=
    fun _ _ => ⟨trivial, fun _ asked => by cases asked⟩
  have unheard : ∀ world paths, StampGuard .plain world (.observe paths) :=
    fun _ _ => ⟨trivial, fun _ asked => by cases asked⟩
  have moves : StampGuard .plain observedPair (.refreshStatus (.ok newHead)) := by
    refine ⟨trivial, fun status asked => ?_⟩
    cases asked
    decide +kernel
  have stays : StampGuard .plain newHeadPair (.refreshStatus (.ok newHead)) := by
    refine ⟨trivial, fun status asked => ?_⟩
    cases asked
    decide +kernel
  have refreshed : newHeadPair.state.shared ∈ newHeadPair.state.seen :=
    List.mem_append_right observedPair.state.seen (List.mem_singleton_self _)
  have again : newHeadAgain.state.seen =
      newHeadPair.state.seen ++ [newHeadAgain.state.shared] := rfl
  have stamp : newHeadAgain.state.shared.stamp = newHeadPair.state.shared.stamp := by
    decide +kernel
  have run := run_observedPair _ (unheard _ _) (untouched _ _)
  have later : newHeadAgain.state.shared ∈ newHeadAgain.state.seen := by
    rw [again]
    exact List.mem_append_right _ (List.mem_singleton_self _)
  have earlier : newHeadPair.state.shared ∈ newHeadAgain.state.seen := by
    rw [again]
    exact List.mem_append_left _ refreshed
  exact stamp_identifies opened_oldPair ((run.snoc ⟨moves, rfl⟩).snoc ⟨stays, rfl⟩)
    _ later _ earlier stamp

-- A refresh that finds another dirty file and the same HEAD gives the stamp again.
open Sample in
theorem stamp_reused :
    Function.Injective Workspace.plain.contentHash ∧
      ¬∀ start actions later, Workspace.plain.Opened start →
        Run Workspace.plain.Step start actions later →
        ∀ first ∈ later.state.seen, ∀ second ∈ later.state.seen, first.stamp = second.stamp →
          first.index.hashAt = second.index.hashAt ∧ first.repoStatus = second.repoStatus := by
  refine ⟨fun _ _ same => same, fun all => ?_⟩
  let later := Workspace.plain.act (.refreshStatus (.ok dirtyA)) oldPair
  have run : Run Workspace.plain.Step oldPair [.refreshStatus (.ok dirtyA)] later := .single rfl
  have same := all _ _ _ opened_oldPair run oldPair.state.shared (List.mem_cons_self ..)
    later.state.shared (List.mem_cons_of_mem _ (List.mem_cons_self ..)) rfl
  exact absurd same.2 (by decide)

end CodeWeave
