import CodeWeave.Defs.State.LedgerLaws
import CodeWeave.Defs.TrimLaws

namespace CodeWeave

def PathBuf.inGit : PathBuf → Prop
  | .below text => isGitPath (normalizePathText text)
  | .outside _ => False

theorem segments_trimSlashes (text : Text) : segments (trimSlashes text) = segments text := by
  have front (text : Text) : segments (text.dropWhile (· = '/')) = segments text := by
    induction text with
    | nil => rfl
    | cons c rest ih =>
      rw [List.dropWhile_cons]
      split
      · next slash =>
        rw [ih, of_decide_eq_true slash]
        exact (segments_append [] rest).symm
      · rfl
  have back (text : Text) : segments (text.rdropWhile (· = '/')) = segments text := by
    induction text using List.reverseRecOn with
    | nil => rfl
    | append_singleton rest c ih =>
      rw [List.rdropWhile_concat]
      split
      · next slash =>
        rw [ih, of_decide_eq_true slash, segments_append rest []]
        exact (List.append_nil _).symm
      · rfl
  rw [trimSlashes, back, front]

theorem git_mem_segments {relative : Text} (git : isGitPath relative) :
    gitName ∈ segments relative := by
  cases git with
  | inl same =>
    rw [same]
    decide
  | inr below =>
    obtain ⟨rest, rfl⟩ := below
    rw [List.append_assoc, List.singleton_append, segments_append]
    exact List.mem_append_left _ (by decide)

theorem isIgnored_of_inGit (ws : Workspace) {path : PathBuf} (git : path.inGit) (isDir : Bool) :
    ws.isIgnored path isDir = true := by
  cases path with
  | outside text => cases git
  | below text =>
    have normal : normalizePathText text =
        trimDotSlash (text.map fun c => if c = '\\' then '/' else c) := by
      rw [normalizePathText]
      split
      · rfl
      · next none =>
        have same : text.map (fun c => if c = '\\' then '/' else c) = text.map id :=
          List.map_congr_left fun c mem => if_neg fun eq : c = '\\' => none (eq ▸ mem)
        rw [same, List.map_id]
    have within := git_mem_segments git
    rw [normal, segments_trimDotSlash, ← segments_trimSlashes] at within
    have forward : '\\' ∉ trimSlashes (text.map fun c => if c = '\\' then '/' else c) := by
      intro mem
      have inside := (List.rdropWhile_prefix _ _).subset mem
      obtain ⟨c, -, eq⟩ := List.mem_map.mp ((List.dropWhile_suffix _).subset inside)
      split at eq
      · cases eq
      · next other => exact other eq
    rw [← segments_trimDotSlash, ← normalizePathText_eq_trim forward] at within
    have component := List.mem_of_mem_filter within
    have ignored : ignoredWorkspacePath (trimSlashes (text.map fun c => if c = '\\' then '/' else c)) =
        true := List.any_eq_true.mpr ⟨gitName, component, by decide⟩
    simp only [Workspace.isIgnored, PathBuf.relativePath, ignored, Bool.true_or]

namespace ChangeLedger

variable {ws : Workspace} {ledger : ChangeLedger} {path : PathBuf}

theorem mem_observeOne (disk : Disk) (other : PathBuf) :
    (other ∈ (ledger.observeOne ws disk path).pending → other ∈ ledger.pending ∨
      ∃ text, path = .below text ∧ other = path ∧ ws.isIgnored path (disk.isDir path) = false) ∧
    ledger.pending ⊆ (ledger.observeOne ws disk path).pending := by
  cases path with
  | outside text => exact ⟨.inl, List.Subset.refl _⟩
  | below text =>
    simp only [observeOne]
    split
    · exact ⟨.inl, List.Subset.refl _⟩
    · next kept =>
      simp only [Bool.or_eq_true, not_or, Bool.not_eq_true] at kept
      exact ⟨fun mem => (mem_or_eq_of_mem_insertPath mem).imp_right fun eq => ⟨text, rfl, eq, kept.1.2⟩,
        subset_insertPath⟩

def GitPending (ledger : ChangeLedger) : Prop := ∃ path ∈ ledger.pending, isGitPath path.relative

def Flagged (ledger : ChangeLedger) : Prop := ledger.pending ≠ [] → ledger.needsReconcile = true

theorem flagged_new : new.Flagged := fun some => absurd rfl some

theorem flagged_markPending (ledger : ChangeLedger) (paths : List PathBuf) :
    (ledger.markPending paths).Flagged := fun _ => rfl

theorem Flagged.observeOne (flagged : ledger.Flagged) (disk : Disk) :
    (ledger.observeOne ws disk path).Flagged := by
  cases path with
  | outside text => exact flagged
  | below text =>
    simp only [ChangeLedger.observeOne]
    split
    · exact flagged
    · exact fun _ => rfl

theorem gitPending_observeOne (disk : Disk) :
    (ledger.observeOne ws disk path).GitPending ↔ ledger.GitPending := by
  constructor
  · rintro ⟨other, mem, git⟩
    cases (mem_observeOne disk other).1 mem with
    | inl before => exact ⟨other, before, git⟩
    | inr here =>
      obtain ⟨text, rfl, rfl, kept⟩ := here
      have ignored := @isIgnored_of_inGit ws (.below text) git (disk.isDir (.below text))
      exact absurd (ignored.symm.trans kept) (by decide)
  · rintro ⟨other, mem, git⟩
    exact ⟨other, (mem_observeOne disk other).2 mem, git⟩

def observeCalls (ws : Workspace) (ledger : ChangeLedger) (calls : List (Disk × List PathBuf)) :
    ChangeLedger :=
  calls.foldl (fun ledger call => ledger.observe ws call.1 call.2) ledger

theorem observe_keeps (disk : Disk) (paths : List PathBuf) (flagged : ledger.Flagged) :
    (ledger.observe ws disk paths).Flagged ∧
      ((ledger.observe ws disk paths).GitPending ↔ ledger.GitPending) := by
  induction paths generalizing ledger with
  | nil => exact ⟨flagged, Iff.rfl⟩
  | cons path rest ih =>
    obtain ⟨later, same⟩ := ih (flagged.observeOne disk)
    exact ⟨later, same.trans (gitPending_observeOne disk)⟩

theorem observeCalls_keeps (calls : List (Disk × List PathBuf)) (flagged : ledger.Flagged) :
    (ledger.observeCalls ws calls).Flagged ∧
      ((ledger.observeCalls ws calls).GitPending ↔ ledger.GitPending) := by
  induction calls generalizing ledger with
  | nil => exact ⟨flagged, Iff.rfl⟩
  | cons call rest ih =>
    obtain ⟨now, same⟩ := @observe_keeps ws ledger call.1 call.2 flagged
    obtain ⟨later, same'⟩ := ih now
    exact ⟨later, same'.trans same⟩

def DrainsGit (ws : Workspace) (ledger : ChangeLedger) (disk : Disk) (now : Instant) : Prop :=
  ∃ drain, (ledger.drainPending ws disk now).1 = some drain ∧ drain.gitEvent = true

theorem drainsGit_iff (flagged : ledger.Flagged) (disk : Disk) (now : Instant) :
    ledger.DrainsGit ws disk now ↔ ledger.GitPending := by
  have event : (ledger.drain ws disk now).gitEvent = true ↔ ledger.GitPending := by
    rw [drain_gitEvent, List.any_eq_true]
    exact exists_congr fun path => and_congr_right fun _ => decide_eq_true_iff
  rw [DrainsGit, drainPending_eq]
  split
  · rw [← event]
    constructor
    · rintro ⟨drain, eq, git⟩
      rwa [Option.some.inj eq]
    · exact fun git => ⟨_, rfl, git⟩
  · next idle =>
    have nothing : ledger.pending = [] := by
      by_contra some
      exact idle (flagged some)
    constructor
    · rintro ⟨drain, eq, -⟩
      cases eq
    · rintro ⟨path, mem, -⟩
      rw [nothing] at mem
      cases mem

end ChangeLedger

/-- If a path in `.git` is observed, the next drain tells. -/
def GitReaches (ws : Workspace) (ledger : ChangeLedger) (calls : List (Disk × List PathBuf))
    (disk : Disk) (now : Instant) : Prop :=
  (∃ call ∈ calls, ∃ path ∈ call.2, path.inGit) →
    (ledger.observeCalls ws calls).DrainsGit ws disk now

/-- No observed path in `.git` reaches a drain: it tells only of such paths that were queued
before. -/
theorem gitReaches_iff {ws : Workspace} {ledger : ChangeLedger} (flagged : ledger.Flagged)
    (calls : List (Disk × List PathBuf)) (disk : Disk) (now : Instant) :
    GitReaches ws ledger calls disk now ↔
      ((∃ call ∈ calls, ∃ path ∈ call.2, path.inGit) → ledger.GitPending) := by
  obtain ⟨later, same⟩ := @ChangeLedger.observeCalls_keeps ws ledger calls flagged
  rw [GitReaches, ChangeLedger.drainsGit_iff later, same]

namespace Sample

def gitHead : PathBuf := .below ".git/HEAD".toList

def emptyDisk : Disk := ⟨∅⟩

end Sample

theorem gitReaches_queued : GitReaches .plain (ChangeLedger.new.markPending [Sample.gitHead])
    [(Sample.emptyDisk, [Sample.gitHead])] Sample.emptyDisk 0 :=
  (gitReaches_iff (ChangeLedger.flagged_markPending _ _) _ _ _).mpr
    fun _ => ⟨Sample.gitHead, List.mem_singleton_self _, .inr ⟨"HEAD".toList, by decide⟩⟩

theorem not_gitReaches : ¬GitReaches .plain .new [(Sample.emptyDisk, [Sample.gitHead])]
    Sample.emptyDisk 0 := by
  intro reaches
  obtain ⟨later, same⟩ := @ChangeLedger.observeCalls_keeps .plain .new
    [(Sample.emptyDisk, [Sample.gitHead])] ChangeLedger.flagged_new
  have drains := reaches ⟨_, List.mem_singleton_self _, Sample.gitHead, List.mem_singleton_self _,
    .inr ⟨"HEAD".toList, by decide⟩⟩
  rw [ChangeLedger.drainsGit_iff later, same] at drains
  obtain ⟨path, mem, -⟩ := drains
  cases mem

end CodeWeave
