import CodeWeave.Defs.State.Ledger

namespace CodeWeave

section

variable {path other : PathBuf} {pending : List PathBuf}

theorem insertPath_of_fresh (fresh : ∀ other ∈ pending, other.key ≠ path.key) :
    insertPath path pending = pending ++ [path] := by
  rw [insertPath, if_neg]
  simpa using fresh

theorem subset_insertPath : pending ⊆ insertPath path pending := by
  rw [insertPath]
  split
  · exact fun _ mem => mem
  · exact List.subset_append_left pending [path]

theorem mem_or_eq_of_mem_insertPath (mem : other ∈ insertPath path pending) :
    other ∈ pending ∨ other = path := by
  rw [insertPath] at mem
  split at mem
  · exact .inl mem
  · exact (List.mem_append.mp mem).imp_right List.mem_singleton.mp

theorem exists_key_insertPath {key : PathKey} : (∃ other ∈ insertPath path pending, other.key = key) ↔
    path.key = key ∨ ∃ other ∈ pending, other.key = key := by
  constructor
  · rintro ⟨other, mem, same⟩
    cases mem_or_eq_of_mem_insertPath mem with
    | inl before => exact .inr ⟨other, before, same⟩
    | inr here => exact .inl (here ▸ same)
  · rintro (rfl | ⟨other, mem, same⟩)
    · by_cases fresh : ∀ other ∈ pending, other.key ≠ path.key
      · rw [insertPath_of_fresh fresh]
        exact ⟨path, List.mem_append_right _ (List.mem_singleton_self path), rfl⟩
      · push Not at fresh
        obtain ⟨other, mem, same⟩ := fresh
        exact ⟨other, subset_insertPath mem, same⟩
    · exact ⟨other, subset_insertPath mem, same⟩

theorem exists_key_foldl_insertPath {key : PathKey} {paths : List PathBuf} :
    (∃ other ∈ paths.foldl (fun pending path => insertPath path pending) pending,
        other.key = key) ↔
      (∃ path ∈ paths, path.key = key) ∨ ∃ other ∈ pending, other.key = key := by
  induction paths generalizing pending with
  | nil => simp
  | cons path rest ih =>
    rw [List.foldl_cons, ih, exists_key_insertPath, or_left_comm, ← or_assoc]
    simp only [List.mem_cons, exists_eq_or_imp]

theorem nodup_insertPath (distinct : (pending.map PathBuf.key).Nodup) (path : PathBuf) :
    ((insertPath path pending).map PathBuf.key).Nodup := by
  rw [insertPath]
  split
  · exact distinct
  · next fresh =>
    rw [List.map_append, List.nodup_append]
    refine ⟨distinct, List.nodup_singleton _, ?_⟩
    intro key mem other here same
    obtain ⟨earlier, inPending, rfl⟩ := List.mem_map.mp mem
    rw [List.map_singleton, List.mem_singleton] at here
    apply fresh
    rw [List.any_eq_true]
    exact ⟨earlier, inPending, decide_eq_true (same.trans here)⟩

end

def unmarked (markers : Markers) (now : Instant) (path : PathBuf) : Bool :=
  !(markers path.key).any fun written => isLive written now

namespace Workspace

variable (ws : Workspace)

def refreshes (disk : Disk) (path : PathBuf) : Bool :=
  !decide (isGitPath path.relative) && ws.drains disk path

theorem drainPath_eq (disk : Disk) (now : Instant) (drain : PendingDrain) (markers : Markers)
    (path : PathBuf) :
    ws.drainPath disk now (drain, markers) path =
      (⟨drain.gitEvent || decide (isGitPath path.relative),
        if ws.refreshes disk path then drain.paths ++ [path] else drain.paths,
        if ws.refreshes disk path && unmarked markers now path then
          drain.external.insert path.relative else drain.external⟩,
        if ws.refreshes disk path then fun key => if key = path.key then none else markers key
        else markers) := by
  by_cases git : isGitPath path.relative
  · simp [drainPath, refreshes, git]
  · by_cases drained : ws.drains disk path = true
    · cases live : (markers path.key).any fun written => isLive written now <;>
        simp [drainPath, refreshes, git, drained, consumeInternal, unmarked, live]
    · simp [drainPath, refreshes, git, drained]

theorem foldl_drainPath_paths (disk : Disk) (now : Instant) (pending : List PathBuf)
    (drain : PendingDrain) (markers : Markers) :
    (pending.foldl (ws.drainPath disk now) (drain, markers)).1.paths =
      drain.paths ++ pending.filter (ws.refreshes disk) := by
  induction pending generalizing drain markers with
  | nil => simp
  | cons path rest ih =>
    rw [List.foldl_cons, drainPath_eq, ih]
    by_cases drained : ws.refreshes disk path = true
    · simp [drained]
    · simp [drained]

theorem foldl_drainPath_gitEvent (disk : Disk) (now : Instant) (pending : List PathBuf)
    (drain : PendingDrain) (markers : Markers) :
    (pending.foldl (ws.drainPath disk now) (drain, markers)).1.gitEvent =
      (drain.gitEvent || pending.any fun path => isGitPath path.relative) := by
  induction pending generalizing drain markers with
  | nil => simp
  | cons path rest ih =>
    rw [List.foldl_cons, drainPath_eq, ih, List.any_cons, Bool.or_assoc]

theorem mem_external (disk : Disk) (now : Instant) {pending : List PathBuf}
    (distinct : (pending.map PathBuf.key).Nodup) (drain : PendingDrain) (markers : Markers)
    (relative : Text) :
    relative ∈ (pending.foldl (ws.drainPath disk now) (drain, markers)).1.external ↔
      relative ∈ drain.external ∨ ∃ path ∈ pending, ws.refreshes disk path = true ∧
        unmarked markers now path = true ∧ path.relative = relative := by
  induction pending generalizing drain markers with
  | nil => simp
  | cons path rest ih =>
    have parts := List.nodup_cons.mp distinct
    have other : ∀ later ∈ rest, later.key ≠ path.key := by
      intro later mem same
      exact parts.1 (List.mem_map.mpr ⟨later, mem, same⟩)
    have same_markers : ∀ later ∈ rest,
        unmarked (if ws.refreshes disk path then fun key => if key = path.key then none else markers key
          else markers) now later = unmarked markers now later := by
      intro later mem
      split
      · rw [unmarked, unmarked, if_neg (other later mem)]
      · rfl
    have later_external : ∀ later, (later ∈ rest ∧ ws.refreshes disk later = true ∧
        unmarked (if ws.refreshes disk path then fun key => if key = path.key then none else markers key
          else markers) now later = true ∧ later.relative = relative) ↔
        later ∈ rest ∧ ws.refreshes disk later = true ∧ unmarked markers now later = true ∧
          later.relative = relative := by
      intro later
      exact and_congr_right fun mem => by rw [same_markers later mem]
    rw [List.foldl_cons, drainPath_eq, ih parts.2, exists_congr later_external]
    by_cases here : (ws.refreshes disk path && unmarked markers now path) = true
    · have both := Bool.and_eq_true_iff.mp here
      rw [if_pos here, List.mem_insert_iff]
      simp only [List.mem_cons, exists_eq_or_imp, both.1, both.2, true_and, @eq_comm _ relative]
      tauto
    · rw [if_neg here]
      rw [Bool.and_eq_true_iff] at here
      simp only [List.mem_cons, exists_eq_or_imp]
      tauto

end Workspace

namespace ChangeLedger

def Distinct (ledger : ChangeLedger) : Prop := (ledger.pending.map PathBuf.key).Nodup

def Awaits (ledger : ChangeLedger) (path : PathBuf) : Prop :=
  ledger.needsReconcile = true ∧ ∃ other ∈ ledger.pending, other.key = path.key

instance (ledger : ChangeLedger) (path : PathBuf) : Decidable (ledger.Awaits path) :=
  inferInstanceAs (Decidable (_ ∧ _))

def drained (ws : Workspace) (disk : Disk) (ledger : ChangeLedger) (now : Instant) : ChangeLedger :=
  { ledger with
    pending := []
    needsReconcile := false
    internalWrites := (ledger.pending.foldl (ws.drainPath disk now)
      (⟨false, [], []⟩, ledger.internalWrites)).2 }

def drain (ws : Workspace) (disk : Disk) (ledger : ChangeLedger) (now : Instant) : PendingDrain :=
  (ledger.pending.foldl (ws.drainPath disk now) (⟨false, [], []⟩, ledger.internalWrites)).1

variable (ws : Workspace) (disk : Disk) (ledger : ChangeLedger) (now : Instant)

theorem drainPending_eq : ledger.drainPending ws disk now =
    if ledger.needsReconcile then (some (ledger.drain ws disk now), ledger.drained ws disk now)
    else (none, ledger) := rfl

theorem drain_paths :
    (ledger.drain ws disk now).paths = ledger.pending.filter (ws.refreshes disk) :=
  ws.foldl_drainPath_paths disk now ledger.pending _ _

theorem drain_gitEvent :
    (ledger.drain ws disk now).gitEvent =
      ledger.pending.any fun path => isGitPath path.relative := by
  rw [drain, ws.foldl_drainPath_gitEvent, Bool.false_or]

variable {ledger} in
theorem mem_drain_external (distinct : ledger.Distinct) (relative : Text) :
    relative ∈ (ledger.drain ws disk now).external ↔
      ∃ path ∈ ledger.pending, ws.refreshes disk path = true ∧
        unmarked ledger.internalWrites now path = true ∧ path.relative = relative := by
  rw [drain, ws.mem_external disk now distinct]
  simp

end ChangeLedger

end CodeWeave
