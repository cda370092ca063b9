import CodeWeave.Defs.Index.FileLaws
import CodeWeave.Defs.TrimLaws

/-! What a successful refresh leaves of the requested paths.  Paths none of which
lies below another have effects that agree, so the order they are taken in does
not matter. -/

namespace CodeWeave

open Overwrite

theorem segments_of_below {top path : Text} (below : top ++ ['/'] <+: path) :
    segments top <+: segments path := by
  obtain ⟨rest, rfl⟩ := below
  rw [List.append_assoc, List.singleton_append, segments_append]
  exact List.prefix_append ..

theorem segments_of_atOrBelow {top path : Text} (below : AtOrBelow top path) :
    segments top <+: segments path := by
  cases below with
  | inl same => rw [same]
  | inr below => exact segments_of_below below

def PathBuf.LiesBelow (path top : PathBuf) : Prop :=
  segments top.relative <+: segments path.relative ∧
    segments top.relative ≠ segments path.relative

def Unnested (paths : List PathBuf) : Prop :=
  ∀ top ∈ paths, ∀ path ∈ paths, ¬path.LiesBelow top

def PathBuf.Blank (path : PathBuf) : Prop := path.relative = [] ∨ path.relative = ['.']

instance (path : PathBuf) : Decidable path.Blank := inferInstanceAs (Decidable (_ ∨ _))

def Unindexable (ws : Workspace) (bytes : ByteArray) : Prop :=
  bytes.size > ws.maxFileBytes ∨ (bytes.data.toList.take 8192).any (· = 0) = true ∨
    fromUtf8 bytes = none

namespace Disk

variable (disk : Disk)

def Missing (path : PathBuf) : Prop :=
  ∃ file, RelPath.new path.relative = .ok file ∧ disk.node file.components = none

def Fileless (path : PathBuf) : Prop :=
  ¬path.Blank ∧ ∃ file, RelPath.new path.relative = .ok file ∧ disk.isRegularFile file = false

end Disk

namespace Workspace

variable (ws : Workspace)

def excludes (path : PathBuf) : Bool := ws.isIgnored path false || ws.excludedPath path

def PassesOver (disk : Disk) (path : PathBuf) : Prop :=
  path.Blank ∨ (∀ file, RelPath.new path.relative ≠ .ok file) ∨
    ∃ file bytes, RelPath.new path.relative = .ok file ∧
      disk.fileAt file.components = some bytes ∧ Unindexable ws bytes

structure TrueFor (disk : Disk) (faults : ReadFaults) (paths : List PathBuf)
    (before after : CodeIndex) (reported : List Text) : Prop where
  current : ∀ path ∈ paths, ws.excludes path = false →
    ws.readEntry disk faults path ∅ = .ok (after.get path.relative)
  gone : ∀ path ∈ paths, ws.excludes path = false → ∀ file, RelPath.new path.relative = .ok file →
    (∀ bytes, disk.fileAt file.components = some bytes → Unindexable ws bytes) →
    after.get path.relative = none
  untouched : ∀ key, (∀ path ∈ paths, path.relative ≠ key) →
    (∀ path ∈ paths, disk.Missing path → ¬path.relative ++ ['/'] <+: key) →
    after.lookup key = before.lookup key
  reported : ∀ key, key ∈ reported ↔ after.hashAt key ≠ before.hashAt key

/-- The index holds nothing that a refresh of the paths would leave stale or take
out without being asked. -/
structure Unstale (disk : Disk) (paths : List PathBuf) (index : CodeIndex) : Prop where
  passedOver : ∀ path ∈ paths, ws.excludes path = false → ws.PassesOver disk path →
    index.get path.relative = none
  occupied : ∀ path ∈ paths, disk.Fileless path → ¬disk.Missing path → ∀ key,
    path.relative ++ ['/'] <+: key → (∀ other ∈ paths, other.relative ≠ key) →
    index.lookup key = none

end Workspace

theorem CodeIndex.get_relative (index : CodeIndex) (path : PathBuf) :
    index.get path.relative = index.lookup path.relative := by
  rw [get, Workspace.normalizePathText_relative, lookup]

theorem PathBuf.components_of_new {path : PathBuf} {file : RelPath}
    (new : RelPath.new path.relative = .ok file) : file.components = segments path.relative := by
  rw [RelPath.components, RelPath.new_text new, Workspace.normalizePathText_relative]

theorem PathBuf.new_of_atOrBelow {top path : PathBuf} {file : RelPath} (named : ¬top.Blank)
    (new : RelPath.new top.relative = .ok file) (below : AtOrBelow top.relative path.relative)
    (same : segments top.relative = segments path.relative) :
    ¬path.Blank ∧ ∃ file', RelPath.new path.relative = .ok file' := by
  have text : file.text = top.relative := by
    rw [RelPath.new_text new, Workspace.normalizePathText_relative]
  have absolute : ¬isAbsolute top.relative := text ▸ file.relative
  have inside : parentName ∉ segments top.relative := text ▸ file.inside
  have nonempty : top.relative ≠ [] := fun empty => named (.inl empty)
  obtain ⟨rest, eq⟩ : top.relative <+: path.relative := by
    cases below with
    | inl same => rw [same]
    | inr below => exact (List.prefix_append ..).trans below
  obtain ⟨c, cs, shape⟩ := List.exists_cons_of_ne_nil nonempty
  have head : path.relative.head? = some c := by rw [← eq, shape]; rfl
  constructor
  · rintro (empty | dot)
    · rw [empty] at head; cases head
    · cases below with
      | inl same => exact named (.inr (same ▸ dot))
      | inr below =>
        have long := below.length_le
        rw [List.length_append, dot, shape] at long
        simp at long
  · have absolute' : ¬isAbsolute (normalizePathText path.relative) := by
      rw [Workspace.normalizePathText_relative, isAbsolute, head]
      rw [isAbsolute, shape] at absolute
      exact absolute
    have inside' : parentName ∉ segments (normalizePathText path.relative) := by
      rw [Workspace.normalizePathText_relative, ← same]
      exact inside
    refine ⟨⟨_, normalizePathText_idem path.relative, absolute', inside'⟩, ?_⟩
    rw [RelPath.new]
    simp only [dif_neg absolute', dif_neg inside']

section

variable {disk : Disk}

theorem Disk.Fileless.atOrBelow {top path : PathBuf} (fileless : disk.Fileless top)
    (below : AtOrBelow top.relative path.relative) (apart : ¬path.LiesBelow top) :
    disk.Fileless path := by
  obtain ⟨named, file, new, irregular⟩ := fileless
  have same : segments top.relative = segments path.relative := by
    by_contra differs
    exact apart ⟨segments_of_atOrBelow below, differs⟩
  obtain ⟨named', file', new'⟩ := PathBuf.new_of_atOrBelow named new below same
  refine ⟨named', file', new', ?_⟩
  rw [Disk.isRegularFile, PathBuf.components_of_new new', ← same, ← PathBuf.components_of_new new]
  exact irregular

theorem Disk.Fileless.not_passesOver {path : PathBuf} (fileless : disk.Fileless path)
    (ws : Workspace) : ¬ws.PassesOver disk path := by
  obtain ⟨named, file, new, irregular⟩ := fileless
  rintro (blank | outside | ⟨file', bytes, new', regular, -⟩)
  · exact named blank
  · exact outside file new
  · rw [new] at new'
    cases new'
    rw [Disk.isRegularFile, regular] at irregular
    cases irregular

theorem Disk.Missing.of_segments {top path : PathBuf} {file : RelPath}
    (missing : disk.Missing top) (new : RelPath.new path.relative = .ok file)
    (same : segments top.relative = segments path.relative) : disk.Missing path := by
  obtain ⟨file', new', absent⟩ := missing
  refine ⟨file, new, ?_⟩
  rw [PathBuf.components_of_new new, ← same, ← PathBuf.components_of_new new']
  exact absent

end

namespace Workspace

variable (ws : Workspace) {disk : Disk} {faults : ReadFaults}

theorem readEntry_fileless {path : PathBuf} (fileless : disk.Fileless path)
    (cache : SymbolCache) : ws.readEntry disk faults path cache = .ok none := by
  obtain ⟨-, file, new, irregular⟩ := fileless
  have read : disk.readFile faults file ws.maxFileBytes = .ok none := by
    rw [Disk.readFile]
    split
    · next bytes modifiedNs node =>
      rw [Disk.isRegularFile, Disk.fileAt_eq_some.mpr ⟨_, node⟩] at irregular
      cases irregular
    · rfl
  simp only [readEntry, new, read]

theorem readEntry_regular {path : PathBuf} {file : RelPath} {bytes : ByteArray}
    (new : RelPath.new path.relative = .ok file)
    (regular : disk.fileAt file.components = some bytes) {found : Option FileEntry}
    {cache : SymbolCache} (read : ws.readEntry disk faults path cache = .ok found) :
    found = none ↔ Unindexable ws bytes := by
  obtain ⟨modifiedNs, node⟩ := Disk.fileAt_eq_some.mp regular
  simp only [readEntry, new, Disk.readFile, node] at read
  cases fault : faults file.components with
  | some error => simp [fault] at read
  | none =>
    simp only [fault] at read
    by_cases large : bytes.size > ws.maxFileBytes
    · simp only [if_pos large, Except.ok.injEq] at read
      exact iff_of_true read.symm (.inl large)
    · simp only [if_neg large] at read
      by_cases binary : (bytes.data.toList.take 8192).any (· = 0) = true
      · simp only [if_pos binary, Except.ok.injEq] at read
        exact iff_of_true read.symm (.inr (.inl binary))
      · simp only [if_neg binary] at read
        cases utf8 : fromUtf8 bytes with
        | none =>
          simp only [utf8, Except.ok.injEq] at read
          exact iff_of_true read.symm (.inr (.inr utf8))
        | some content =>
          simp only [utf8, Except.ok.injEq] at read
          refine iff_of_false (by rw [← read]; exact Option.some_ne_none _) ?_
          rintro (h | h | h)
          · exact large h
          · exact binary h
          · rw [utf8] at h; cases h

theorem readEntry_blank {path : PathBuf} (blank : path.Blank) (cache : SymbolCache) :
    ws.readEntry disk faults path cache = .ok none := by
  have components : segments (normalizePathText path.relative) = [] := by
    rw [normalizePathText_relative]
    cases blank with
    | inl empty => rw [empty]; rfl
    | inr dot => rw [dot]; rfl
  cases new : RelPath.new path.relative with
  | error error => simp only [readEntry, new]
  | ok file =>
    have root : file.components = [] := by
      rw [RelPath.components, RelPath.new_text new, components]
    simp [readEntry, new, Disk.readFile, root]

theorem refresh_cases {path : PathBuf} (reads : ws.readable disk faults path = true) :
    (ws.effectOf disk faults path = .removeTree path.relative ∧ disk.Fileless path) ∨
    (ws.effectOf disk faults path = .skip ∧ ¬disk.Fileless path ∧
      (ws.excludes path = true ∨ ws.readEntry disk faults path ∅ = .ok none ∧
        ws.PassesOver disk path)) ∨
    ∃ entry, ws.effectOf disk faults path = .insert entry ∧ ¬disk.Fileless path ∧
      ¬ws.PassesOver disk path ∧ ws.excludes path = false ∧
      ws.readEntry disk faults path ∅ = .ok (some entry) := by
  by_cases blank : path.Blank
  · have outcome : ws.refreshEffect disk faults path = .ok .skip := by
      rw [refreshEffect]; exact if_pos blank
    refine .inr (.inl ⟨by rw [effectOf, outcome], fun fileless => fileless.1 blank, .inr ?_⟩)
    exact ⟨ws.readEntry_blank blank ∅, .inl blank⟩
  cases new : RelPath.new path.relative with
  | error error =>
    have outcome : ws.refreshEffect disk faults path = .ok .skip := by
      rw [refreshEffect]
      simp only [new]
      exact if_neg blank
    refine .inr (.inl ⟨by rw [effectOf, outcome], ?_, .inr ⟨by simp only [readEntry, new], ?_⟩⟩)
    · rintro ⟨-, file, new', -⟩
      rw [new] at new'
      cases new'
    · exact .inr (.inl fun file new' => by rw [new] at new'; cases new')
  | ok file =>
    have named : ¬(path.relative = [] ∨ path.relative = ['.']) := blank
    cases regular : disk.isRegularFile file with
    | false =>
      have outcome : ws.refreshEffect disk faults path = .ok (.removeTree path.relative) := by
        simp only [refreshEffect, if_neg named, new, regular, Bool.not_false, if_true]
      exact .inl ⟨by rw [effectOf, outcome], blank, file, new, regular⟩
    | true =>
      have present : ¬disk.Fileless path := by
        rintro ⟨-, file', new', irregular⟩
        rw [new] at new'
        cases new'
        rw [regular] at irregular
        cases irregular
      obtain ⟨bytes, isFile⟩ := Option.isSome_iff_exists.mp regular
      cases excluded : ws.excludes path with
      | true =>
        have asked : (ws.isIgnored path false || ws.excludedPath path) = true := excluded
        have outcome : ws.refreshEffect disk faults path = .ok .skip := by
          simp only [refreshEffect, if_neg named, new, regular, asked, Bool.not_true,
            Bool.false_eq_true, if_false, if_true]
        exact .inr (.inl ⟨by rw [effectOf, outcome], present, .inl rfl⟩)
      | false =>
        have asked : (ws.isIgnored path false || ws.excludedPath path) = false := excluded
        cases read : ws.readEntry disk faults path ∅ with
        | error error =>
          have outcome : ws.refreshEffect disk faults path = .error error := by
            simp only [refreshEffect, if_neg named, new, regular, asked, read, Bool.not_true,
              Bool.false_eq_true, if_false]
          rw [readable, outcome] at reads
          cases reads
        | ok found =>
          have indexed := ws.readEntry_regular new isFile read
          cases found with
          | none =>
            have outcome : ws.refreshEffect disk faults path = .ok .skip := by
              simp only [refreshEffect, if_neg named, new, regular, asked, read, Bool.not_true,
                Bool.false_eq_true, if_false]
            refine .inr (.inl ⟨by rw [effectOf, outcome], present, .inr ⟨rfl, ?_⟩⟩)
            exact .inr (.inr ⟨file, bytes, new, isFile, indexed.mp rfl⟩)
          | some entry =>
            have outcome : ws.refreshEffect disk faults path = .ok (.insert entry) := by
              simp only [refreshEffect, if_neg named, new, regular, asked, read, Bool.not_true,
                Bool.false_eq_true, if_false]
            refine .inr (.inr ⟨entry, by rw [effectOf, outcome], present, ?_, rfl, rfl⟩)
            rintro (isBlank | outside | ⟨file', bytes', new', isFile', un⟩)
            · exact blank isBlank
            · exact outside file new
            · rw [new] at new'
              cases new'
              rw [isFile] at isFile'
              cases isFile'
              exact Option.some_ne_none _ (indexed.mpr un)

variable {paths : List PathBuf}

theorem readEntry_congr {path other : PathBuf} (same : path.relative = other.relative)
    (cache : SymbolCache) :
    ws.readEntry disk faults path cache = ws.readEntry disk faults other cache := by
  rw [readEntry, readEntry, same]

theorem included_of_insert {path : PathBuf} {entry : FileEntry}
    (inserts : ws.effectOf disk faults path = .insert entry) : ws.excludes path = false := by
  have reads : ws.readable disk faults path = true := by
    rw [readable]
    cases outcome : ws.refreshEffect disk faults path with
    | error error => simp [effectOf, outcome] at inserts
    | ok effect => rfl
  rcases ws.refresh_cases reads with ⟨effect, -⟩ | ⟨effect, -⟩ | ⟨other, -, -, -, included, -⟩
  · rw [inserts] at effect; cases effect
  · rw [inserts] at effect; cases effect
  · exact included

theorem effectOf_insert_iff {path : PathBuf} {entry : FileEntry} :
    ws.effectOf disk faults path = .insert entry ↔
      ws.excludes path = false ∧ ws.readEntry disk faults path ∅ = .ok (some entry) := by
  refine ⟨fun inserts => ⟨ws.included_of_insert inserts, ws.effectOf_insert inserts⟩, ?_⟩
  rintro ⟨included, read⟩
  have blank : ¬path.Blank := fun blank => by
    rw [ws.readEntry_blank blank] at read
    cases read
  have present : ¬disk.Fileless path := fun fileless => by
    rw [ws.readEntry_fileless fileless] at read
    cases read
  cases new : RelPath.new path.relative with
  | error error => simp [readEntry, new] at read
  | ok file =>
    have regular : disk.isRegularFile file = true := by
      by_contra irregular
      exact present ⟨blank, file, new, by simpa using irregular⟩
    have excluded : (ws.isIgnored path false || ws.excludedPath path) = false := included
    rw [effectOf, refreshEffect]
    have named : ¬(path.relative = [] ∨ path.relative = ['.']) := blank
    simp only [if_neg named, new, regular, excluded, read, Bool.not_true, Bool.false_eq_true,
      if_false]

theorem decided_of_patch {path : PathBuf} (reads : ws.readable disk faults path = true)
    {key : Text} {found : Option FileEntry}
    (decides : (ws.effectOf disk faults path).patch key = some found) :
    (found = none ∧ disk.Fileless path ∧ AtOrBelow path.relative key) ∨
      ∃ entry, found = some entry ∧ key = path.relative ∧ ¬disk.Fileless path ∧
        ws.effectOf disk faults path = .insert entry := by
  rcases ws.refresh_cases reads with
    ⟨effect, fileless⟩ | ⟨effect, -⟩ | ⟨entry, effect, present, -, -, read⟩
  · rw [effect] at decides
    simp only [Effect.patch, Option.ite_none_right_eq_some, Option.some.injEq] at decides
    exact .inl ⟨decides.2.symm, fileless, decides.1⟩
  · rw [effect] at decides; cases decides
  · rw [effect] at decides
    simp only [Effect.patch, Option.ite_none_right_eq_some, Option.some.injEq] at decides
    rw [ws.readEntry_path read] at decides
    exact .inr ⟨entry, decides.2.symm, decides.1, present, effect⟩

def Unshadowed (disk : Disk) (faults : ReadFaults) (paths : List PathBuf) : Prop :=
  ∀ top ∈ paths, ∀ path ∈ paths, ∀ entry, disk.Fileless top →
    ws.effectOf disk faults path = .insert entry → ¬AtOrBelow top.relative path.relative

theorem agree_patches (unshadowed : ws.Unshadowed disk faults paths)
    (reads : ∀ path ∈ paths, ws.readable disk faults path = true) :
    Agree (paths.map fun path => (ws.effectOf disk faults path).patch) := by
  intro p hp q hq key v w hv hw
  obtain ⟨path, mem, rfl⟩ := List.mem_map.mp hp
  obtain ⟨other, mem', rfl⟩ := List.mem_map.mp hq
  rcases ws.decided_of_patch (reads path mem) hv with
    ⟨rfl, fileless, below⟩ | ⟨entry, rfl, rfl, -, inserts⟩
  · rcases ws.decided_of_patch (reads other mem') hw with
      ⟨rfl, -⟩ | ⟨entry', rfl, rfl, -, inserts'⟩
    · rfl
    · exact absurd below (unshadowed path mem other mem' entry' fileless inserts')
  · rcases ws.decided_of_patch (reads other mem') hw with
      ⟨rfl, fileless', below'⟩ | ⟨entry', rfl, same, -, inserts'⟩
    · exact absurd below' (unshadowed other mem' path mem entry fileless' inserts)
    · have read := ws.effectOf_insert inserts
      rw [ws.readEntry_congr same, ws.effectOf_insert inserts'] at read
      cases read
      rfl

section Unshadowed

variable (unshadowed : ws.Unshadowed disk faults paths)
  (reads : ∀ path ∈ paths, ws.readable disk faults path = true)

include unshadowed reads

theorem lookup_refreshed_of_patch {path : PathBuf} (mem : path ∈ paths) {key : Text}
    {found : Option FileEntry} (decides : (ws.effectOf disk faults path).patch key = some found)
    (index : CodeIndex) : (ws.refreshedIndex disk faults paths index).lookup key = found := by
  rw [lookup_refreshedIndex, patches, ws.refreshed_eq_self reads]
  have agree := ws.agree_patches unshadowed reads
  exact agree.applyAll (List.mem_map.mpr ⟨path, mem, rfl⟩) decides _

omit unshadowed in
theorem lookup_refreshed_untouched {key : Text}
    (untouched : ∀ path ∈ paths, (ws.effectOf disk faults path).patch key = none)
    (index : CodeIndex) :
    (ws.refreshedIndex disk faults paths index).lookup key = index.lookup key := by
  rw [lookup_refreshedIndex, patches, ws.refreshed_eq_self reads]
  refine applyAll_untouched (fun patch inPatches => ?_) _
  obtain ⟨path, mem, rfl⟩ := List.mem_map.mp inPatches
  exact untouched path mem

omit unshadowed in
theorem moved_of_reported {changed reported : List Text} {index : CodeIndex} {key : Text}
    (ok : (ws.refreshFrom disk faults paths changed index).1 = .ok reported)
    (mem : key ∈ reported) (fresh : key ∉ changed) :
    ∃ pre path post, paths = pre ++ path :: post ∧
      (ws.effectOf disk faults path).Moves (ws.refreshedIndex disk faults pre index).hashAt
        key := by
  induction paths generalizing changed index with
  | nil => cases ok; exact absurd mem fresh
  | cons path rest ih =>
    rw [refreshFrom, refreshPath_eq] at ok
    have readable := reads path List.mem_cons_self
    cases outcome : ws.refreshEffect disk faults path with
    | error error => simp [Workspace.readable, outcome] at readable
    | ok effect =>
      have here : ws.effectOf disk faults path = effect := by rw [effectOf, outcome]
      simp only [outcome] at ok
      by_cases now : key ∈ effect.changed index
      · refine ⟨[], path, rest, rfl, ?_⟩
        rw [here]
        refine Effect.moves_of_changed (fun entry inserted => ?_) now
        rw [ws.readEntry_path (ws.effectOf_insert (here.trans inserted)),
          normalizePathText_relative]
      · obtain ⟨pre, later, post, rfl, moves⟩ := ih
          (fun other otherMem => reads other (List.mem_cons_of_mem _ otherMem)) ok
          (fun inChanged => (List.mem_append.mp inChanged).elim fresh now)
        refine ⟨path :: pre, later, post, rfl, ?_⟩
        rw [refreshedIndex, refreshed, List.takeWhile_cons_of_pos readable, List.foldl_cons, here]
        exact moves

theorem reported_iff {reported : List Text} {index : CodeIndex}
    (ok : (ws.refreshPaths disk faults paths index).1 = .ok reported) (key : Text) :
    key ∈ reported ↔
      (ws.refreshPaths disk faults paths index).2.hashAt key ≠ index.hashAt key := by
  refine ⟨fun mem => ?_, ws.hash_changed_of_refreshPaths ok⟩
  obtain ⟨pre, path, post, rfl, moves⟩ :=
    ws.moved_of_reported reads ok mem List.not_mem_nil
  obtain ⟨found, decides, moved⟩ := moves.patch
  have here : path ∈ pre ++ path :: post := by simp
  rw [refreshPaths_snd, CodeIndex.hashAt,
    ws.lookup_refreshed_of_patch unshadowed reads here decides]
  have part : (pre.map fun path => (ws.effectOf disk faults path).patch) <+:
      (pre ++ path :: post).map fun path => (ws.effectOf disk faults path).patch := by
    rw [List.map_append]
    exact List.prefix_append ..
  have agree := ws.agree_patches unshadowed reads
  have way := agree.applyAll_prefix part (List.mem_map.mpr ⟨path, here, rfl⟩) decides index.lookup
  have before : ws.refreshed disk faults pre = pre :=
    ws.refreshed_eq_self fun other otherMem => reads other (List.mem_append_left _ otherMem)
  rw [CodeIndex.hashAt, lookup_refreshedIndex, patches, before] at moved
  rcases way with same | same
  · rw [same] at moved
    exact moved
  · rw [same] at moved
    exact absurd rfl moved

end Unshadowed

section Unnested

variable (unnested : Unnested paths)
  (reads : ∀ path ∈ paths, ws.readable disk faults path = true)

include unnested reads

theorem unshadowed_of_unnested : ws.Unshadowed disk faults paths := by
  intro top topMem path mem entry fileless inserts below
  have gone := fileless.atOrBelow below (unnested top topMem path mem)
  rcases ws.refresh_cases (reads path mem) with ⟨effect, -⟩ | ⟨effect, -⟩ | ⟨other, -, present, -⟩
  · rw [inserts] at effect; cases effect
  · rw [inserts] at effect; cases effect
  · exact present gone

theorem untouched_of_passedOver {path : PathBuf} (mem : path ∈ paths)
    (present : ¬disk.Fileless path) (nothing : ws.readEntry disk faults path ∅ = .ok none) :
    ∀ other ∈ paths, (ws.effectOf disk faults other).patch path.relative = none := by
  intro other otherMem
  cases decides : (ws.effectOf disk faults other).patch path.relative with
  | none => rfl
  | some found =>
    rcases ws.decided_of_patch (reads other otherMem) decides with
      ⟨-, fileless, below⟩ | ⟨entry, -, same, -, inserts⟩
    · exact absurd (fileless.atOrBelow below (unnested other otherMem path mem)) present
    · rw [ws.readEntry_congr same, ws.effectOf_insert inserts] at nothing
      cases nothing

theorem trueFor_of_unstale {reported : List Text} {index : CodeIndex}
    (ok : (ws.refreshPaths disk faults paths index).1 = .ok reported)
    (unstale : ws.Unstale disk paths index) :
    ws.TrueFor disk faults paths index (ws.refreshPaths disk faults paths index).2 reported := by
  have unshadowed := ws.unshadowed_of_unnested unnested reads
  have current : ∀ path ∈ paths, ws.excludes path = false → ws.readEntry disk faults path ∅ =
      .ok ((ws.refreshPaths disk faults paths index).2.get path.relative) := by
    intro path mem included
    rw [CodeIndex.get_relative, refreshPaths_snd]
    rcases ws.refresh_cases (reads path mem) with
      ⟨effect, fileless⟩ | ⟨effect, present, excluded | ⟨nothing, passedOver⟩⟩ |
        ⟨entry, effect, -, -, -, read⟩
    · rw [ws.readEntry_fileless fileless, ws.lookup_refreshed_of_patch unshadowed reads mem
        (by rw [effect]; exact if_pos (.inl rfl))]
    · rw [included] at excluded; cases excluded
    · rw [nothing, ws.lookup_refreshed_untouched reads
        (ws.untouched_of_passedOver unnested reads mem present nothing),
        ← CodeIndex.get_relative, unstale.passedOver path mem included passedOver]
    · rw [read, ws.lookup_refreshed_of_patch unshadowed reads mem
        (by rw [effect, ← ws.readEntry_path read]; exact if_pos rfl)]
  refine ⟨current, fun path mem included file new unindexable => ?_, fun key others above => ?_,
    ws.reported_iff unshadowed reads ok⟩
  · have read := current path mem included
    cases regular : disk.fileAt file.components with
    | some bytes => exact (ws.readEntry_regular new regular read).mpr (unindexable bytes regular)
    | none =>
      by_cases blank : path.Blank
      · rw [ws.readEntry_blank blank] at read
        exact (Except.ok.inj read).symm
      · have fileless : disk.Fileless path :=
          ⟨blank, file, new, by rw [Disk.isRegularFile, regular]; rfl⟩
        rw [ws.readEntry_fileless fileless] at read
        exact (Except.ok.inj read).symm
  · rw [refreshPaths_snd]
    by_cases reached : ∃ path ∈ paths, ∃ found,
        (ws.effectOf disk faults path).patch key = some found
    · obtain ⟨path, mem, found, decides⟩ := reached
      rw [ws.lookup_refreshed_of_patch unshadowed reads mem decides]
      rcases ws.decided_of_patch (reads path mem) decides with
        ⟨rfl, fileless, same | below⟩ | ⟨entry, -, same, -⟩
      · exact absurd same.symm (others path mem)
      · exact (unstale.occupied path mem fileless
          (fun missing => above path mem missing below) key below others).symm
      · exact absurd same.symm (others path mem)
    · refine ws.lookup_refreshed_untouched reads (fun path mem => ?_) index
      cases decides : (ws.effectOf disk faults path).patch key with
      | none => rfl
      | some found => exact absurd ⟨path, mem, found, decides⟩ reached

theorem unstale_of_trueFor {reported : List Text} {index : CodeIndex}
    (holds : ws.TrueFor disk faults paths index
      (ws.refreshPaths disk faults paths index).2 reported) :
    ws.Unstale disk paths index := by
  have unshadowed := ws.unshadowed_of_unnested unnested reads
  constructor
  · intro path mem included passedOver
    have current := holds.current path mem included
    rw [CodeIndex.get_relative, refreshPaths_snd] at current
    rw [CodeIndex.get_relative]
    rcases ws.refresh_cases (reads path mem) with
      ⟨-, fileless⟩ | ⟨-, present, excluded | ⟨nothing, -⟩⟩ | ⟨entry, -, -, indexed, -⟩
    · exact absurd passedOver (fileless.not_passesOver ws)
    · rw [included] at excluded; cases excluded
    · rw [nothing, ws.lookup_refreshed_untouched reads
        (ws.untouched_of_passedOver unnested reads mem present nothing)] at current
      cases same : index.lookup path.relative with
      | none => rfl
      | some entry => rw [same] at current; cases current
    · exact absurd passedOver indexed
  · intro path mem fileless occupied key below others
    have effect : (ws.effectOf disk faults path).patch key = some none := by
      rcases ws.refresh_cases (reads path mem) with
        ⟨effect, -⟩ | ⟨-, present, -⟩ | ⟨entry, -, present, -⟩
      · rw [effect]; exact if_pos (.inr below)
      · exact absurd fileless present
      · exact absurd fileless present
    have unmissed : ∀ top ∈ paths, disk.Missing top → ¬top.relative ++ ['/'] <+: key := by
      intro top topMem missing topBelow
      obtain ⟨-, file, new, -⟩ := fileless
      -- two paths above one key lie in a line, and neither lies below the other
      have same : segments top.relative = segments path.relative := by
        have line := List.prefix_or_prefix_of_prefix (segments_of_below topBelow)
          (segments_of_below below)
        by_contra differs
        rcases line with first | second
        · exact unnested top topMem path mem ⟨first, differs⟩
        · exact unnested path mem top topMem ⟨second, fun same => differs same.symm⟩
      exact occupied (missing.of_segments new same)
    rw [← holds.untouched key others unmissed, refreshPaths_snd,
      ws.lookup_refreshed_of_patch unshadowed reads mem effect]

end Unnested

/-- A successful refresh leaves an index true for the requested paths just where the
index held nothing stale before it: the refresh takes out no entry of a file that can
no longer be indexed, and takes out what lies below an existing directory. -/
theorem refreshPaths_trueFor_iff (paths : List PathBuf) (index : CodeIndex)
    (reported : List Text) (unnested : Unnested paths)
    (ok : (ws.refreshPaths disk faults paths index).1 = .ok reported) :
    ws.TrueFor disk faults paths index (ws.refreshPaths disk faults paths index).2 reported ↔
      ws.Unstale disk paths index := by
  have reads := (ws.refreshPaths_isOk disk faults paths index).mp (by rw [ok]; rfl)
  exact ⟨ws.unstale_of_trueFor unnested reads, ws.trueFor_of_unstale unnested reads ok⟩

end Workspace

namespace Sample

def letterF : RelPath := ⟨"f".toList, by decide, by decide, by decide⟩

def indexHolding (path : Text) : CodeIndex :=
  CodeIndex.empty.insert .plain ⟨path, "x".toList, "x".toList, [], 1, 0⟩

def nulFile : Disk := Disk.setNode ⟨∅⟩ ["f".toList] (.file ⟨#[0]⟩ 0)

def oneDirectory : Disk := Disk.holding [(["f".toList, "b".toList], "x".toList)]

def fileBelowD : RelPath := ⟨"d/x".toList, by decide, by decide, by decide⟩

def letterG : RelPath := ⟨"g".toList, by decide, by decide, by decide⟩

def letterH : RelPath := ⟨"h".toList, by decide, by decide, by decide⟩

def severalKinds : Disk :=
  Disk.setNode (Disk.holding
    [(["d".toList, "x".toList], "new".toList), (["g".toList, "y".toList], "new".toList)])
    ["h".toList] (.file ⟨#[0]⟩ 0)

def severalPaths : List PathBuf := [letterF.join, fileBelowD.join, letterG.join, letterH.join]

def twoEntries : CodeIndex :=
  (indexHolding "f".toList).insert .plain ⟨"d/x".toList, "x".toList, "x".toList, [], 1, 0⟩

theorem unnested_severalPaths : Unnested severalPaths := by
  unfold Unnested PathBuf.LiesBelow
  decide

theorem unstale_severalPaths : Workspace.plain.Unstale severalKinds severalPaths twoEntries := by
  have missing : severalKinds.Missing letterF.join := ⟨letterF, by rfl, by rfl⟩
  have fileless : severalKinds.Fileless letterF.join := ⟨by decide, letterF, by rfl, by rfl⟩
  constructor
  · intro path mem _ passedOver
    simp only [severalPaths, List.mem_cons, List.not_mem_nil, or_false] at mem
    rcases mem with rfl | rfl | rfl | rfl
    · exact absurd passedOver (fileless.not_passesOver .plain)
    · rcases passedOver with blank | outside | ⟨file, bytes, new, regular, unindexable⟩
      · exact absurd blank (by decide)
      · exact absurd rfl (outside fileBelowD)
      · cases new
        cases regular
        exact absurd unindexable (by unfold Unindexable; decide)
    · rfl
    · rfl
  · intro path mem directory occupied key below _
    simp only [severalPaths, List.mem_cons, List.not_mem_nil, or_false] at mem
    rcases mem with rfl | rfl | rfl | rfl
    · exact absurd missing occupied
    · obtain ⟨-, file, new, irregular⟩ := directory
      cases new
      cases irregular
    · have keys : ¬letterG.join.relative ++ ['/'] <+: "d/x".toList ∧
          ¬letterG.join.relative ++ ['/'] <+: "f".toList := by decide
      rw [twoEntries, CodeIndex.lookup_insert, if_neg, indexHolding, CodeIndex.lookup_insert,
        if_neg]
      · rfl
      · rintro rfl
        exact keys.2 below
      · rintro rfl
        exact keys.1 below
    · obtain ⟨-, file, new, irregular⟩ := directory
      cases new
      cases irregular

end Sample

open Sample in
theorem refreshPaths_trueFor_several :
    Workspace.plain.TrueFor severalKinds (fun _ => none) severalPaths twoEntries
      (Workspace.plain.refreshPaths severalKinds (fun _ => none) severalPaths twoEntries).2
      ["f".toList, "d/x".toList] :=
  (Workspace.refreshPaths_trueFor_iff .plain severalPaths twoEntries
    ["f".toList, "d/x".toList] unnested_severalPaths (by rfl)).mpr unstale_severalPaths

-- A file that has become binary keeps its entry, and the entry of a file goes when
-- its directory is refreshed.
open Sample in
theorem refreshPaths_not_trueFor :
    ((Workspace.plain.refreshPaths nulFile (fun _ => none) [letterF.join]
        (indexHolding "f".toList)).1 = .ok [] ∧
      ¬Workspace.plain.TrueFor nulFile (fun _ => none) [letterF.join] (indexHolding "f".toList)
        (Workspace.plain.refreshPaths nulFile (fun _ => none) [letterF.join]
          (indexHolding "f".toList)).2 []) ∧
    ((Workspace.plain.refreshPaths oneDirectory (fun _ => none) [letterF.join]
        (indexHolding "f/b".toList)).1 = .ok ["f/b".toList] ∧
      ¬Workspace.plain.TrueFor oneDirectory (fun _ => none) [letterF.join]
        (indexHolding "f/b".toList) (Workspace.plain.refreshPaths oneDirectory (fun _ => none)
          [letterF.join] (indexHolding "f/b".toList)).2 ["f/b".toList]) := by
  refine ⟨⟨by rfl, fun holds => ?_⟩, ⟨by rfl, fun holds => ?_⟩⟩
  · have gone := holds.gone letterF.join (List.mem_singleton_self _) (by rfl) letterF (by rfl)
      fun bytes regular => .inr (.inl (by cases regular; rfl))
    exact absurd gone (by decide)
  · have kept := holds.untouched "f/b".toList
      (fun path mem => by rw [List.mem_singleton.mp mem]; decide)
      (fun path mem missing => by
        obtain ⟨file, new, absent⟩ := missing
        rw [List.mem_singleton.mp mem] at new
        cases new
        cases absent)
    exact absurd kept (by decide)

end CodeWeave
