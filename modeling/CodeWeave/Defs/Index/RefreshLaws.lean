import CodeWeave.Defs.Index.Scan
import CodeWeave.Lib.Overwrite

/-! What refreshing a path does to the index is decided by the disk alone.  A
refresh is a sequence of overwrites of the index, one for each path in the order
the paths come in. -/

namespace CodeWeave

open Overwrite

inductive Effect
  | skip
  | removeTree (path : Text)
  | insert (entry : FileEntry)
  deriving DecidableEq

namespace Effect

def run (ws : Workspace) (index : CodeIndex) : Effect → CodeIndex
  | .skip => index
  | .removeTree path => (index.removeTree ws path).2
  | .insert entry => index.insert ws entry

def changed (index : CodeIndex) : Effect → List Text
  | .skip => []
  | .removeTree path => index.files.keys.filter fun candidate => AtOrBelow path candidate
  | .insert entry => if (index.get entry.path).all (fun old => old.hash ≠ entry.hash)
      then [entry.path] else []

def patch : Effect → Patch Text (Option FileEntry)
  | .skip, _ => none
  | .removeTree path, key => if AtOrBelow path key then some none else none
  | .insert entry, key => if key = entry.path then some (some entry) else none

def Moves (hashes : Text → Option ContentHash) : Effect → Text → Prop
  | .skip, _ => False
  | .removeTree path, key => AtOrBelow path key ∧ hashes key ≠ none
  | .insert entry, key => key = entry.path ∧ hashes key ≠ some entry.hash

theorem moves_of_patch {hashes : Text → Option ContentHash} {effect : Effect} {key : Text}
    {entry : Option FileEntry} (decides : effect.patch key = some entry)
    (moved : entry.map FileEntry.hash ≠ hashes key) : effect.Moves hashes key := by
  cases effect with
  | skip => cases decides
  | removeTree path =>
    simp only [patch] at decides
    split at decides
    · next below =>
      cases decides
      exact ⟨below, fun absent => moved absent.symm⟩
    · cases decides
  | insert inserted =>
    simp only [patch] at decides
    split at decides
    · next same =>
      cases decides
      exact ⟨same, fun kept => moved kept.symm⟩
    · cases decides

theorem Moves.patch {hashes : Text → Option ContentHash} {effect : Effect} {key : Text}
    (moves : effect.Moves hashes key) :
    ∃ found, effect.patch key = some found ∧ found.map FileEntry.hash ≠ hashes key := by
  cases effect with
  | skip => cases moves
  | removeTree path => exact ⟨none, if_pos moves.1, fun absent => moves.2 absent.symm⟩
  | insert entry => exact ⟨some entry, if_pos moves.1, fun kept => moves.2 kept.symm⟩

theorem moves_of_changed {effect : Effect} {index : CodeIndex} {key : Text}
    (normal : ∀ entry, effect = .insert entry → normalizePathText entry.path = entry.path)
    (mem : key ∈ effect.changed index) : effect.Moves index.hashAt key := by
  cases effect with
  | skip => cases mem
  | removeTree path =>
    simp only [changed, List.mem_filter, CodeIndex.mem_keys_iff, decide_eq_true_eq] at mem
    obtain ⟨present, below⟩ := mem
    obtain ⟨old, found⟩ := Option.isSome_iff_exists.mp present
    exact ⟨below, by rw [CodeIndex.hashAt, found]; exact Option.some_ne_none _⟩
  | insert entry =>
    simp only [changed, List.mem_ite_nil_right, List.mem_singleton] at mem
    obtain ⟨differs, rfl⟩ := mem
    refine ⟨rfl, ?_⟩
    rw [CodeIndex.get, normal entry rfl] at differs
    rw [CodeIndex.hashAt, CodeIndex.lookup]
    cases found : index.files.lookup entry.path with
    | none => exact (Option.some_ne_none _).symm
    | some old => simpa [found] using differs

theorem lookup_run (ws : Workspace) (effect : Effect) (index : CodeIndex) :
    (effect.run ws index).lookup = effect.patch.apply index.lookup := by
  funext key
  cases effect with
  | skip => rfl
  | removeTree path =>
    simp only [run, CodeIndex.lookup_removeTree, Patch.apply, patch]
    split <;> rfl
  | insert entry =>
    simp only [run, CodeIndex.lookup_insert, Patch.apply, patch]
    split <;> rfl

theorem hash_changed {ws : Workspace} {effect : Effect} {index : CodeIndex} {key : Text}
    (normal : ∀ entry, effect = .insert entry → normalizePathText entry.path = entry.path)
    (h : (effect.run ws index).hashAt key ≠ index.hashAt key) : key ∈ effect.changed index := by
  cases effect with
  | skip => exact absurd rfl h
  | removeTree path =>
    simp only [CodeIndex.hashAt, run, CodeIndex.lookup_removeTree] at h
    by_cases below : AtOrBelow path key
    · have present : (index.lookup key).isSome := by
        cases found : index.lookup key with
        | none => simp [below, found] at h
        | some => rfl
      simp [changed, List.mem_filter, CodeIndex.mem_keys_iff, present, below]
    · simp [below] at h
  | insert entry =>
    simp only [CodeIndex.hashAt, run, CodeIndex.lookup_insert] at h
    by_cases same : key = entry.path
    · subst same
      have get : index.get entry.path = index.lookup entry.path := by
        rw [CodeIndex.get, normal entry rfl, CodeIndex.lookup]
      have differs : (index.get entry.path).all (fun old => old.hash ≠ entry.hash) = true := by
        rw [get]
        cases found : index.lookup entry.path with
        | none => rfl
        | some old =>
          rw [if_pos rfl, found] at h
          exact decide_eq_true fun eq => h (by simp [eq])
      rw [changed, if_pos differs]
      exact List.mem_singleton_self _
    · simp [same] at h

end Effect

namespace Workspace

variable (ws : Workspace)

def refreshEffect (disk : Disk) (faults : ReadFaults) (absolute : PathBuf) : AppResult Effect :=
  let relative := absolute.relative
  if relative = [] ∨ relative = ['.'] then .ok .skip
  else
    match RelPath.new relative with
    | .error _ => .ok .skip
    | .ok file =>
      if !disk.isRegularFile file then .ok (.removeTree relative)
      else if ws.isIgnored absolute false || ws.excludedPath absolute then .ok .skip
      else
        match ws.readEntry disk faults absolute ∅ with
        | .error error => .error error
        | .ok none => .ok .skip
        | .ok (some entry) => .ok (.insert entry)

def effectOf (disk : Disk) (faults : ReadFaults) (absolute : PathBuf) : Effect :=
  match ws.refreshEffect disk faults absolute with
  | .ok effect => effect
  | .error _ => .skip

def readable (disk : Disk) (faults : ReadFaults) (absolute : PathBuf) : Bool :=
  (ws.refreshEffect disk faults absolute).isOk

theorem refreshPath_eq (disk : Disk) (faults : ReadFaults) (absolute : PathBuf)
    (index : CodeIndex) :
    ws.refreshPath disk faults absolute index =
      match ws.refreshEffect disk faults absolute with
      | .error error => .error error
      | .ok effect => .ok (effect.changed index, effect.run ws index) := by
  unfold refreshPath refreshEffect
  by_cases blank : absolute.relative = [] ∨ absolute.relative = ['.']
  · simp only [if_pos blank]; rfl
  · simp only [if_neg blank]
    cases RelPath.new absolute.relative with
    | error => rfl
    | ok file =>
      cases regular : disk.isRegularFile file with
      | false => simp only [regular, Bool.not_false, if_true]; rfl
      | true =>
        simp only [regular, Bool.not_true, Bool.false_eq_true, if_false]
        by_cases excluded : (ws.isIgnored absolute false || ws.excludedPath absolute) = true
        · simp only [if_pos excluded]; rfl
        · simp only [if_neg excluded]
          cases ws.readEntry disk faults absolute ∅ with
          | error => rfl
          | ok entry => cases entry <;> rfl

def refreshed (disk : Disk) (faults : ReadFaults) (paths : List PathBuf) : List PathBuf :=
  paths.takeWhile (ws.readable disk faults)

def refreshedIndex (disk : Disk) (faults : ReadFaults) (paths : List PathBuf) (index : CodeIndex) :
    CodeIndex :=
  (ws.refreshed disk faults paths).foldl
    (fun index path => (ws.effectOf disk faults path).run ws index) index

theorem refreshFrom_eq (disk : Disk) (faults : ReadFaults) (paths : List PathBuf)
    (changed : List Text) (index : CodeIndex) :
    (ws.refreshFrom disk faults paths changed index).2 = ws.refreshedIndex disk faults paths index ∧
      ((ws.refreshFrom disk faults paths changed index).1.isOk ↔
        ∀ path ∈ paths, ws.readable disk faults path) := by
  induction paths generalizing changed index with
  | nil => simp [refreshFrom, refreshedIndex, refreshed]
  | cons path rest ih =>
    rw [refreshFrom, refreshPath_eq]
    cases outcome : ws.refreshEffect disk faults path with
    | error error =>
      have unreadable : ws.readable disk faults path = false := by
        simp [readable, outcome]
      simp [refreshedIndex, refreshed, unreadable]
    | ok effect =>
      have reads : ws.readable disk faults path = true := by
        simp [readable, outcome]
      have effectOf_path : ws.effectOf disk faults path = effect := by simp [effectOf, outcome]
      obtain ⟨left, right⟩ := ih (changed ++ effect.changed index) (effect.run ws index)
      constructor
      · simpa [refreshedIndex, refreshed, reads, effectOf_path] using left
      · simpa [reads] using right

theorem refreshPaths_snd (disk : Disk) (faults : ReadFaults) (paths : List PathBuf)
    (index : CodeIndex) :
    (ws.refreshPaths disk faults paths index).2 = ws.refreshedIndex disk faults paths index :=
  (ws.refreshFrom_eq disk faults paths [] index).1

theorem refreshPaths_isOk (disk : Disk) (faults : ReadFaults) (paths : List PathBuf)
    (index : CodeIndex) :
    (ws.refreshPaths disk faults paths index).1.isOk ↔ ∀ path ∈ paths, ws.readable disk faults path :=
  (ws.refreshFrom_eq disk faults paths [] index).2

theorem refreshed_eq_self {disk : Disk} {faults : ReadFaults} {paths : List PathBuf}
    (h : ∀ path ∈ paths, ws.readable disk faults path) : ws.refreshed disk faults paths = paths :=
  List.takeWhile_eq_self_iff.mpr h

def patches (disk : Disk) (faults : ReadFaults) (paths : List PathBuf) :
    List (Patch Text (Option FileEntry)) :=
  (ws.refreshed disk faults paths).map fun path => (ws.effectOf disk faults path).patch

theorem lookup_refreshedIndex (disk : Disk) (faults : ReadFaults) (paths : List PathBuf)
    (index : CodeIndex) :
    (ws.refreshedIndex disk faults paths index).lookup =
      applyAll (ws.patches disk faults paths) index.lookup := by
  unfold refreshedIndex patches
  induction ws.refreshed disk faults paths generalizing index with
  | nil => rfl
  | cons path rest ih => rw [List.foldl_cons, ih, Effect.lookup_run, List.map_cons, applyAll_cons]

theorem moves_of_hashAt {disk : Disk} {faults : ReadFaults} {paths : List PathBuf}
    {index : CodeIndex} {key : Text}
    (moved : (ws.refreshedIndex disk faults paths index).hashAt key ≠ index.hashAt key) :
    ∃ path ∈ ws.refreshed disk faults paths,
      (ws.effectOf disk faults path).Moves index.hashAt key := by
  rw [CodeIndex.hashAt, lookup_refreshedIndex] at moved
  cases applyAll_cases (ws.patches disk faults paths) key index.lookup with
  | inl untouched =>
    rw [applyAll_untouched untouched] at moved
    exact absurd rfl moved
  | inr decided =>
    obtain ⟨pre, patch, post, split, -, decides⟩ := decided
    have mem : patch ∈ ws.patches disk faults paths := by rw [split]; simp
    obtain ⟨path, refreshed, rfl⟩ := List.mem_map.mp mem
    exact ⟨path, refreshed, Effect.moves_of_patch decides moved⟩

def Steady (disk : Disk) (faults : ReadFaults) (paths : List PathBuf)
    (hashes : Text → Option ContentHash) : Prop :=
  ∀ path ∈ ws.refreshed disk faults paths, ∀ key, ¬(ws.effectOf disk faults path).Moves hashes key

theorem hashAt_of_steady {disk : Disk} {faults : ReadFaults} {paths : List PathBuf}
    {index : CodeIndex} (steady : ws.Steady disk faults paths index.hashAt) :
    (ws.refreshedIndex disk faults paths index).hashAt = index.hashAt := by
  funext key
  by_contra moved
  obtain ⟨path, refreshed, moves⟩ := ws.moves_of_hashAt moved
  exact steady path refreshed key moves

theorem readEntry_path {disk : Disk} {faults : ReadFaults} {path : PathBuf} {cache : SymbolCache}
    {entry : FileEntry} (h : ws.readEntry disk faults path cache = .ok (some entry)) :
    entry.path = path.relative := by
  unfold readEntry at h
  split at h
  · cases h
  · next relative new =>
    split at h
    · cases h
    · cases h
    · next file read =>
      split at h
      · cases h
      · split at h
        · cases h
        · cases h
          rw [RelPath.new_text new]
          cases path <;> simp [PathBuf.relative]

@[simp] theorem normalizePathText_relative (path : PathBuf) :
    normalizePathText path.relative = path.relative := by
  cases path <;> simp [PathBuf.relative]

theorem effectOf_insert {disk : Disk} {faults : ReadFaults} {path : PathBuf} {entry : FileEntry}
    (h : ws.effectOf disk faults path = .insert entry) :
    ws.readEntry disk faults path ∅ = .ok (some entry) := by
  unfold effectOf at h
  split at h
  · next effect outcome =>
    subst h
    unfold refreshEffect at outcome
    simp only at outcome
    split at outcome
    · cases outcome
    · split at outcome
      · cases outcome
      · split at outcome
        · cases outcome
        · split at outcome
          · cases outcome
          · split at outcome
            · cases outcome
            · cases outcome
            · next read => cases outcome; exact read
  · cases h

theorem hash_changed_of_refreshFrom {disk : Disk} {faults : ReadFaults} {paths : List PathBuf}
    {changed reported : List Text} {index : CodeIndex} {key : Text}
    (ok : (ws.refreshFrom disk faults paths changed index).1 = .ok reported)
    (h : key ∈ changed ∨
      (ws.refreshFrom disk faults paths changed index).2.hashAt key ≠ index.hashAt key) :
    key ∈ reported := by
  induction paths generalizing changed index with
  | nil =>
    cases ok
    exact h.resolve_right fun moved => moved rfl
  | cons path rest ih =>
    rw [refreshFrom, refreshPath_eq] at ok h
    cases outcome : ws.refreshEffect disk faults path with
    | error error => simp [outcome] at ok
    | ok effect =>
      simp only [outcome] at ok h
      refine ih ok ?_
      rcases h with before | moved
      · exact .inl (List.mem_append_left _ before)
      · by_cases here : (effect.run ws index).hashAt key = index.hashAt key
        · exact .inr (by rwa [here])
        · refine .inl (List.mem_append_right _ (Effect.hash_changed ?_ here))
          rintro entry rfl
          have : ws.effectOf disk faults path = .insert entry := by simp [effectOf, outcome]
          rw [ws.readEntry_path (ws.effectOf_insert this)]
          simp

theorem hash_changed_of_refreshPaths {disk : Disk} {faults : ReadFaults} {paths : List PathBuf}
    {reported : List Text} {index : CodeIndex} {key : Text}
    (ok : (ws.refreshPaths disk faults paths index).1 = .ok reported)
    (h : (ws.refreshPaths disk faults paths index).2.hashAt key ≠ index.hashAt key) :
    key ∈ reported :=
  ws.hash_changed_of_refreshFrom ok (.inr h)

end Workspace

end CodeWeave
