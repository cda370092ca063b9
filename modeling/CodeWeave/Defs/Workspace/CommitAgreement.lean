import CodeWeave.Defs.Index.FileLaws
import CodeWeave.Defs.Workspace.Compensation

namespace CodeWeave

open Overwrite

/-- The index has an entry with the hash of the file's content, or neither the
index nor the disk has the path. -/
def Agrees (ws : Workspace) (world : World) (path : RelPath) : Prop :=
  (world.state.shared.index.hashAt path.text).map some =
    (world.disk.fileAt path.components).map fun bytes => (fromUtf8 bytes).map ws.contentHash

instance (ws : Workspace) (world : World) (path : RelPath) : Decidable (Agrees ws world path) :=
  inferInstanceAs (Decidable (_ = _))

def Known (ws : Workspace) (world : World) (path : RelPath) : Prop :=
  Agrees ws world path ∨ world.state.ledger.Awaits path.join

instance (ws : Workspace) (world : World) (path : RelPath) : Decidable (Known ws world path) :=
  inferInstanceAs (Decidable (_ ∨ _))

theorem agrees_iff {ws : Workspace} {world : World} {path : RelPath} {content : Option Text}
    (holds : world.disk.fileAt path.components = content.map Text.bytes) :
    Agrees ws world path ↔
      world.state.shared.index.hashAt path.text = content.map ws.contentHash := by
  have texts : (world.disk.fileAt path.components).map
      (fun bytes => (fromUtf8 bytes).map ws.contentHash) =
        (content.map ws.contentHash).map some := by
    rw [holds]
    cases content <;> simp
  rw [Agrees, texts]
  exact (Option.map_injective (Option.some_injective _)).eq_iff

structure PlannedFile.Indexable (ws : Workspace) (item : PlannedFile) : Prop where
  path : IndexablePath ws item.path
  before : ∀ content ∈ item.before, IndexableText ws content
  after : ∀ content ∈ item.after, IndexableText ws content

instance (ws : Workspace) (item : PlannedFile) : Decidable (item.Indexable ws) :=
  decidable_of_iff (IndexablePath ws item.path ∧
      (∀ content ∈ item.before, IndexableText ws content) ∧
      ∀ content ∈ item.after, IndexableText ws content)
    ⟨fun h => ⟨h.1, h.2.1, h.2.2⟩, fun h => ⟨h.path, h.before, h.after⟩⟩

/-- The entry whose write comes last of those that name the file of an entry. -/
def lastOf (items : List PlannedFile) (item : PlannedFile) : PlannedFile :=
  (items.reverse.find? fun other => other.path.components = item.path.components).getD item

def writtenAt (items : List PlannedFile) (item : PlannedFile) : Option Text :=
  (lastOf items item).after

/-- What a file holds once a commit has failed and been compensated. -/
def CommitIo.left (io : CommitIo) (completed : List PlannedFile) (item : PlannedFile) :
    Option Text :=
  match (io.restored completed).reverse.find? fun other =>
      other.path.components = item.path.components with
  | some other => other.before
  | none => writtenAt completed item

/-- A refresh that goes through these paths removes the tree of a planned path above the
file that is not there, and does not go through the file's own path after that. -/
def Removed (plan : List PlannedFile) (content : PlannedFile → Option Text)
    (paths : List PathBuf) (item : PlannedFile) : Prop :=
  ∃ top ∈ plan, content top = none ∧ top.path.text ++ ['/'] <+: item.path.text ∧
    ∃ pre post, paths = pre ++ top.path.join :: post ∧ item.path.join ∉ post

theorem join_ne_of_below {top path : RelPath} (below : top.text ++ ['/'] <+: path.text) :
    top.join ≠ path.join := by
  intro same
  have length := below.length_le
  rw [PathBuf.below.inj same, List.length_append, List.length_singleton] at length
  omega

theorem mem_after_iff {A : Type} {xs pre post : List A} {a b : A} (nodup : xs.Nodup)
    (split : xs = pre ++ a :: post) (other : b ≠ a) :
    b ∈ post ↔ ∃ before after, xs = before ++ b :: after ∧ a ∉ after := by
  subst split
  have parts := List.nodup_append.mp nodup
  have inner := List.nodup_cons.mp parts.2.1
  have fresh : a ∉ pre := fun mem => parts.2.2 a mem a List.mem_cons_self rfl
  constructor
  · intro mem
    obtain ⟨between, after, rfl⟩ := List.append_of_mem mem
    refine ⟨pre ++ a :: between, after, by simp, fun later => inner.1 ?_⟩
    exact List.mem_append_right _ (List.mem_cons_of_mem _ later)
  · rintro ⟨before, after, eq, earlier⟩
    have inBefore : a ∈ before := by
      have mem : a ∈ before ++ b :: after := by
        rw [← eq]
        exact List.mem_append_right _ List.mem_cons_self
      rcases List.mem_append.mp mem with here | later
      · exact here
      · exact ((List.mem_cons.mp later).resolve_left other.symm |> earlier).elim
    obtain ⟨first, second, rfl⟩ := List.append_of_mem inBefore
    rw [List.append_assoc, List.cons_append] at eq
    have unique := (List.append_cons_inj_of_notMem fresh inner.1).mp eq
    rw [unique.2.2]
    exact List.mem_append_right _ List.mem_cons_self

theorem mem_iff_split_of_notMem {A : Type} {xs : List A} {a b : A} (fresh : a ∉ xs) :
    b ∈ xs ↔ ∃ before after, xs = before ++ b :: after ∧ a ∉ after := by
  constructor
  · intro mem
    obtain ⟨before, after, rfl⟩ := List.append_of_mem mem
    refine ⟨before, after, rfl, fun later => fresh ?_⟩
    exact List.mem_append_right _ (List.mem_cons_of_mem _ later)
  · rintro ⟨before, after, rfl, -⟩
    exact List.mem_append_right _ List.mem_cons_self

theorem removed_iff {plan : List PlannedFile} {content : PlannedFile → Option Text}
    {entry : PathBuf → Option FileEntry} {gone later : List PathBuf} {item : PlannedFile}
    (planned : ∀ path ∈ later, ∃ top ∈ plan, top.path.join = path)
    (absent : ∀ top ∈ plan, top.path.join ∈ later →
      (entry top.path.join = none ↔ content top = none))
    (after : ∀ top : PlannedFile, top.path.text ++ ['/'] <+: item.path.text →
      (top.path.join ∈ later ↔
        ∃ pre post, gone = pre ++ top.path.join :: post ∧ item.path.join ∉ post)) :
    Removed plan content gone item ↔ ∃ path ∈ later, entry path = none ∧
      path.relative ++ ['/'] <+: item.path.text := by
  constructor
  · rintro ⟨top, mem, missing, below, parts⟩
    have inLater := (after top below).mpr parts
    refine ⟨_, inLater, (absent top mem inLater).mpr missing, ?_⟩
    rwa [RelPath.relative_join]
  · rintro ⟨path, inLater, missing, below⟩
    obtain ⟨top, mem, rfl⟩ := planned path inLater
    rw [RelPath.relative_join] at below
    exact ⟨top, mem, (absent top mem inLater).mp missing, below, (after top below).mp inLater⟩

-- Of what was as it should be already, what may have been removed since.
def LeftWith (removed already : Prop) (content : Option Text) : Prop :=
  removed ∧ content = none ∨ ¬removed ∧ already

theorem leftWith_iff {ws : Workspace} {removed : Prop} {hash old : Option ContentHash}
    {content : Option Text} (gone : removed → hash = none) (kept : ¬removed → hash = old) :
    hash = content.map ws.contentHash ↔
      LeftWith removed (old = content.map ws.contentHash) content := by
  rw [LeftWith]
  by_cases h : removed
  · rw [gone h]
    cases content <;> simp [h]
  · rw [kept h]
    simp [h]

theorem LeftWith.congr {removed first second : Prop} {content : Option Text}
    (same : first ↔ second) : LeftWith removed first content ↔ LeftWith removed second content := by
  rw [LeftWith, LeftWith, same]

def beforeFault (faults : ReadFaults) (plan : List PlannedFile)
    (content : PlannedFile → Option Text) (paths : List PathBuf) : List PathBuf :=
  paths.takeWhile fun path => plan.all fun item =>
    item.path.join = path → (content item).isSome → faults item.path.components = none

theorem applyAll_contents_find (items : List PlannedFile) (content : PlannedFile → Option Text)
    (files : List Text → Option ByteArray) (components : List Text) :
    applyAll (items.map fun item => contentPatch item.path (content item)) files components =
      match items.reverse.find? fun other => other.path.components = components with
      | some other => (content other).map Text.bytes
      | none => files components := by
  induction items using List.reverseRecOn with
  | nil => rfl
  | append_singleton items item ih =>
    rw [List.map_append, applyAll_append, List.reverse_append, List.reverse_singleton,
      List.singleton_append, List.find?_cons, List.map_singleton, applyAll_cons, applyAll_nil]
    by_cases own : item.path.components = components
    · subst own
      rw [Patch.apply_of_some (contentPatch_self _ _)]
      simp
    · rw [Patch.apply_of_none (contentPatch_other (Ne.symm own) _), ih]
      simp [own]

section

variable {items : List PlannedFile} {item : PlannedFile}

theorem find_of_named (named : ∃ other ∈ items, other.path.components = item.path.components) :
    ∃ other ∈ items, (items.reverse.find? fun other =>
      other.path.components = item.path.components) = some other := by
  cases found : items.reverse.find? fun other =>
      other.path.components = item.path.components with
  | none =>
    obtain ⟨other, mem, same⟩ := named
    have differs := List.find?_eq_none.mp found other (List.mem_reverse.mpr mem)
    exact absurd (decide_eq_true same) differs
  | some other => exact ⟨other, List.mem_reverse.mp (List.mem_of_find?_eq_some found), rfl⟩

theorem fileAt_written (named : ∃ other ∈ items, other.path.components = item.path.components)
    (files : List Text → Option ByteArray) :
    applyAll (writtenContents items) files item.path.components =
      (writtenAt items item).map Text.bytes := by
  obtain ⟨other, -, found⟩ := find_of_named named
  rw [writtenContents, applyAll_contents_find, writtenAt, lastOf, found]
  rfl

theorem lastOf_mem {plan : List PlannedFile} (sub : items ⊆ plan) (mem : item ∈ plan) :
    lastOf items item ∈ plan := by
  rw [lastOf]
  cases found : items.reverse.find? fun other =>
      other.path.components = item.path.components with
  | none => exact mem
  | some other => exact sub (List.mem_reverse.mp (List.mem_of_find?_eq_some found))

theorem fileAt_compensated {io : CommitIo} {completed : List PlannedFile}
    (named : ∃ other ∈ completed, other.path.components = item.path.components)
    (files : List Text → Option ByteArray) :
    io.compensated completed files item.path.components =
      (io.left completed item).map Text.bytes := by
  rw [CommitIo.compensated, restoredContents, applyAll_contents_find, CommitIo.left]
  cases (io.restored completed).reverse.find? fun other =>
      other.path.components = item.path.components with
  | none => exact fileAt_written named files
  | some other => rfl

theorem fileAt_compensated_other {io : CommitIo} {completed : List PlannedFile}
    (unnamed : ¬∃ other ∈ completed, other.path.components = item.path.components)
    (files : List Text → Option ByteArray) :
    io.compensated completed files item.path.components = files item.path.components := by
  have other : ∀ done ∈ completed, item.path.components ≠ done.path.components :=
    fun done mem same => unnamed ⟨done, mem, same.symm⟩
  rw [CommitIo.compensated, restoredContents, applyAll_contents_other, writtenContents,
    applyAll_contents_other _ other]
  exact fun restored inRestored => other restored ((io.mem_restored).mp inRestored).1

theorem PlannedFile.Indexable.written {ws : Workspace} {plan : List PlannedFile}
    (indexable : ∀ item ∈ plan, item.Indexable ws) (sub : items ⊆ plan) (mem : item ∈ plan)
    (c : Text) (holds : writtenAt items item = some c) : IndexableText ws c :=
  (indexable _ (lastOf_mem sub mem)).after c holds

theorem PlannedFile.Indexable.left {ws : Workspace} {plan : List PlannedFile} (io : CommitIo)
    (indexable : ∀ item ∈ plan, item.Indexable ws) (mem : item ∈ plan) (c : Text)
    (holds : io.left plan item = some c) : IndexableText ws c := by
  rw [CommitIo.left] at holds
  cases found : (io.restored plan).reverse.find? fun other =>
      other.path.components = item.path.components with
  | none =>
    rw [found] at holds
    exact written indexable (List.Subset.refl plan) mem c holds
  | some other =>
    rw [found] at holds
    have restored := List.mem_reverse.mp (List.mem_of_find?_eq_some found)
    exact (indexable other ((io.mem_restored).mp restored).1).before c holds

end

/-! ### The refreshed paths -/

theorem mem_planPaths {plan : List PlannedFile} {path : PathBuf} (mem : path ∈ planPaths plan) :
    ∃ item ∈ plan, item.path.join = path := by
  have general : ∀ (items : List PlannedFile) (paths : List PathBuf),
      path ∈ items.foldl (fun paths item => insertPath item.path.join paths) paths →
        path ∈ paths ∨ ∃ item ∈ items, item.path.join = path := by
    intro items
    induction items with
    | nil => exact fun _ => .inl
    | cons item rest ih =>
      intro paths mem
      rcases ih _ mem with before | ⟨other, later, same⟩
      · simp only [insertPath] at before
        split at before
        · exact .inl before
        · rcases List.mem_append.mp before with old | new
          · exact .inl old
          · exact .inr ⟨item, List.mem_cons_self, (List.mem_singleton.mp new).symm⟩
      · exact .inr ⟨other, List.mem_cons_of_mem _ later, same⟩
  exact (general plan [] mem).resolve_left List.not_mem_nil

theorem nodup_planPaths (plan : List PlannedFile) : ((planPaths plan).map PathBuf.key).Nodup := by
  have general : ∀ (items : List PlannedFile) (paths : List PathBuf),
      (paths.map PathBuf.key).Nodup →
        ((items.foldl (fun paths item => insertPath item.path.join paths) paths).map
          PathBuf.key).Nodup := by
    intro items
    induction items with
    | nil => exact fun _ nodup => nodup
    | cons item rest ih => exact fun paths nodup => ih _ (nodup_insertPath nodup _)
  exact general plan [] List.nodup_nil

theorem key_mem_planPaths {plan : List PlannedFile} {item : PlannedFile} (mem : item ∈ plan) :
    ∃ path ∈ planPaths plan, path.key = item.path.join.key := by
  have joined : planPaths plan = (plan.map fun item => item.path.join).foldl
      (fun pending path => insertPath path pending) [] := by
    rw [List.foldl_map]
    rfl
  rw [joined]
  exact exists_key_foldl_insertPath.mpr (.inl ⟨_, List.mem_map.mpr ⟨item, mem, rfl⟩, rfl⟩)

theorem nodup_relative {paths : List PathBuf} {plan : List PlannedFile}
    (nodup : (paths.map PathBuf.key).Nodup)
    (planned : ∀ path ∈ paths, ∃ item ∈ plan, item.path.join = path) :
    (paths.map PathBuf.relative).Nodup := by
  refine List.Nodup.map_on (fun first hf second hs same => ?_) nodup.of_map
  obtain ⟨item, -, rfl⟩ := planned first hf
  obtain ⟨other, -, rfl⟩ := planned second hs
  rw [RelPath.relative_join, RelPath.relative_join] at same
  rw [RelPath.ext same]

section

variable (ws : Workspace) {disk : Disk} {faults : ReadFaults} {plan : List PlannedFile}
  {content : PlannedFile → Option Text}

theorem patch_planned {item : PlannedFile} (path : IndexablePath ws item.path)
    (text : ∀ c, content item = some c → IndexableText ws c)
    (file : disk.fileAt item.path.components = (content item).map Text.bytes)
    (reads : (content item).isSome → faults item.path.components = none) :
    ws.readable disk faults item.path.join = true ∧
      (ws.effectOf disk faults item.path.join).entry.map FileEntry.hash =
        (content item).map ws.contentHash ∧
      (ws.effectOf disk faults item.path.join).patch =
        treePatch item.path.text (ws.effectOf disk faults item.path.join).entry := by
  cases holds : content item with
  | none =>
    have effect := ws.refreshEffect_absent faults path.named (by rw [file, holds]; rfl)
    have removes : ws.effectOf disk faults item.path.join = .removeTree item.path.text := by
      rw [Workspace.effectOf, effect]
    refine ⟨by rw [Workspace.readable, effect]; rfl, by rw [removes]; rfl, ?_⟩
    funext key
    have at_top : key = item.path.text → AtOrBelow item.path.text key := .inl
    by_cases below : AtOrBelow item.path.text key
    · simp [removes, Effect.patch, Effect.entry, treePatch, below]
    · simp [removes, Effect.patch, Effect.entry, treePatch, below, mt at_top below]
  | some c =>
    obtain ⟨entry, effect, names, -, hash⟩ := ws.refreshEffect_text faults path (text c holds)
      (by rw [file, holds]; rfl) (reads (by rw [holds]; rfl))
    have inserts : ws.effectOf disk faults item.path.join = .insert entry := by
      rw [Workspace.effectOf, effect]
    refine ⟨by rw [Workspace.readable, effect]; rfl, by simp [inserts, Effect.entry, hash], ?_⟩
    funext key
    simp [inserts, Effect.patch, Effect.entry, treePatch, names]

def Reads (faults : ReadFaults) (plan : List PlannedFile) (content : PlannedFile → Option Text) :
    Prop :=
  ∀ item ∈ plan, (content item).isSome → faults item.path.components = none

variable (indexable : ∀ item ∈ plan, IndexablePath ws item.path)
  (texts : ∀ item ∈ plan, ∀ c, content item = some c → IndexableText ws c)
  (files : ∀ item ∈ plan, disk.fileAt item.path.components = (content item).map Text.bytes)

include indexable texts files

theorem readable_planned {item : PlannedFile} (mem : item ∈ plan) :
    ws.readable disk faults item.path.join = true ↔
      ((content item).isSome → faults item.path.components = none) := by
  refine ⟨fun readable present => ?_, fun reads =>
    (patch_planned ws (indexable item mem) (texts item mem) (files item mem) reads).1⟩
  cases fault : faults item.path.components with
  | none => rfl
  | some error =>
    obtain ⟨c, holds⟩ := Option.isSome_iff_exists.mp present
    have effect := ws.refreshEffect_fault faults (indexable item mem)
      (by rw [files item mem, holds]; rfl) fault
    rw [Workspace.readable, effect] at readable
    cases readable

theorem readable_plan :
    (∀ path ∈ planPaths plan, ws.readable disk faults path = true) ↔ Reads faults plan content := by
  constructor
  · intro readable item mem present
    obtain ⟨path, inPaths, same⟩ := key_mem_planPaths mem
    obtain ⟨other, otherMem, rfl⟩ := mem_planPaths inPaths
    have components : other.path.components = item.path.components := (Prod.ext_iff.mp same).2
    have there : (content other).isSome := by
      have bytes := files other otherMem
      rw [components, files item mem] at bytes
      rwa [← Option.isSome_map, ← bytes, Option.isSome_map]
    rw [← components]
    exact (readable_planned ws indexable texts files otherMem).mp (readable _ inPaths) there
  · intro reads path inPaths
    obtain ⟨item, mem, rfl⟩ := mem_planPaths inPaths
    exact (readable_planned ws indexable texts files mem).mpr (reads item mem)

theorem refreshed_plan {paths : List PathBuf}
    (planned : ∀ path ∈ paths, ∃ item ∈ plan, item.path.join = path) :
    ws.refreshed disk faults paths = beforeFault faults plan content paths := by
  rw [Workspace.refreshed, beforeFault]
  have same : ∀ path ∈ paths, ws.readable disk faults path = plan.all fun item =>
      item.path.join = path → (content item).isSome → faults item.path.components = none := by
    intro path inPaths
    obtain ⟨item, mem, rfl⟩ := planned path inPaths
    rw [Bool.eq_iff_iff, readable_planned ws indexable texts files mem, List.all_eq_true]
    constructor
    · intro reads other otherMem
      refine decide_eq_true fun join => ?_
      have same : other.path = item.path := RelPath.ext (PathBuf.below.inj join)
      have bytes := files other otherMem
      rw [same, files item mem] at bytes
      intro there
      rw [same]
      exact reads (by rwa [← Option.isSome_map, bytes, Option.isSome_map])
    · exact fun all => of_decide_eq_true (all item mem) rfl
  clear planned
  induction paths with
  | nil => rfl
  | cons path rest ih =>
    rw [List.forall_mem_cons] at same
    rw [List.takeWhile_cons, List.takeWhile_cons, same.1, ih same.2]

theorem patch_refreshed {paths : List PathBuf} {item : PlannedFile} (mem : item ∈ plan)
    (through : item.path.join ∈ ws.refreshed disk faults paths) :
    (ws.effectOf disk faults item.path.join).entry.map FileEntry.hash =
        (content item).map ws.contentHash ∧
      (ws.effectOf disk faults item.path.join).patch =
        treePatch item.path.text (ws.effectOf disk faults item.path.join).entry :=
  (patch_planned ws (indexable item mem) (texts item mem) (files item mem)
    ((readable_planned ws indexable texts files mem).mp (List.mem_takeWhile_imp through))).2

theorem lookup_refreshed_plan {paths gone : List PathBuf}
    (through : ws.refreshed disk faults paths = gone)
    (planned : ∀ path ∈ gone, ∃ item ∈ plan, item.path.join = path) (index : CodeIndex) :
    (ws.refreshedIndex disk faults paths index).lookup = applyAll
      (gone.map fun path => treePatch path.relative (ws.effectOf disk faults path).entry)
      index.lookup := by
  subst through
  rw [Workspace.lookup_refreshedIndex, Workspace.patches]
  congr 1
  refine List.map_congr_left fun path inGone => ?_
  obtain ⟨other, h, rfl⟩ := planned path inGone
  rw [RelPath.relative_join]
  exact (patch_refreshed ws indexable texts files h inGone).2

theorem hashAt_refreshed_plan {paths gone : List PathBuf}
    (through : ws.refreshed disk faults paths = gone) (nodup : (gone.map PathBuf.key).Nodup)
    (planned : ∀ path ∈ gone, ∃ item ∈ plan, item.path.join = path) (index : CodeIndex)
    {item : PlannedFile} (mem : item ∈ plan) :
    (Removed plan content gone item →
        (ws.refreshedIndex disk faults paths index).hashAt item.path.text = none) ∧
      (¬Removed plan content gone item →
        (ws.refreshedIndex disk faults paths index).hashAt item.path.text =
          if item.path.join ∈ gone then (content item).map ws.contentHash
          else index.hashAt item.path.text) := by
  have entry_none : ∀ other ∈ plan, other.path.join ∈ gone →
      ((ws.effectOf disk faults other.path.join).entry = none ↔ content other = none) := by
    intro other h inGone
    have hash := (patch_refreshed ws indexable texts files h (through ▸ inGone)).1
    rw [← Option.map_eq_none_iff (f := FileEntry.hash), hash, Option.map_eq_none_iff]
  rw [CodeIndex.hashAt, lookup_refreshed_plan ws indexable texts files through planned]
  by_cases own : item.path.join ∈ gone
  · obtain ⟨pre, post, split⟩ := List.append_of_mem own
    have decided := applyAll_treePatch PathBuf.relative
      (fun path => (ws.effectOf disk faults path).entry)
      (split ▸ nodup_relative nodup planned) index.lookup
    rw [← split, RelPath.relative_join] at decided
    have sub : post ⊆ gone := by
      rw [split]
      exact fun path inPost => List.mem_append_right _ (List.mem_cons_of_mem _ inPost)
    have later : Removed plan content gone item ↔ ∃ path ∈ post,
        (ws.effectOf disk faults path).entry = none ∧
          path.relative ++ ['/'] <+: item.path.text :=
      removed_iff (fun path inPost => planned path (sub inPost))
        (fun top h inPost => entry_none top h (sub inPost))
        fun top below => mem_after_iff nodup.of_map split (join_ne_of_below below)
    rw [later, if_pos own]
    refine ⟨fun removed => by rw [decided.1 removed]; rfl, fun kept => ?_⟩
    rw [decided.2 kept]
    exact (patch_refreshed ws indexable texts files mem (through ▸ own)).1
  · have others : ∀ path ∈ gone, item.path.text ≠ path.relative := by
      intro path inGone same
      obtain ⟨other, -, rfl⟩ := planned path inGone
      rw [RelPath.relative_join] at same
      rw [RelPath.ext same] at own
      exact own inGone
    have decided := applyAll_treePatch_other PathBuf.relative
      (fun path => (ws.effectOf disk faults path).entry) others index.lookup
    have above : Removed plan content gone item ↔ ∃ path ∈ gone,
        (ws.effectOf disk faults path).entry = none ∧
          path.relative ++ ['/'] <+: item.path.text :=
      removed_iff planned entry_none fun top _ => mem_iff_split_of_notMem own
    rw [above, if_neg own]
    refine ⟨fun removed => by rw [decided.1 removed]; rfl, fun kept => ?_⟩
    rw [decided.2 kept]
    rfl

end

section

variable (ws : Workspace) (io : CommitIo) (plan : List PlannedFile) (world : World)

def hasHash (item : PlannedFile) (content : Option Text) : Prop :=
  world.state.shared.index.hashAt item.path.text = content.map ws.contentHash

/-- When a commit attempt leaves every planned file known, or queued already: after a
failed write, each file that was written before is left with the content the index has;
after a refresh that goes through, the commit's own or the compensation's, each path that is
there has been refreshed after the removals above it, or has its content's hash without. -/
structure LeavesKnown : Prop where
  stopped : ¬(∀ item ∈ plan, io.writes item = true) → ∀ item ∈ plan,
    (∃ other ∈ io.written plan, other.path.components = item.path.components) →
      hasHash ws world item (io.left (io.written plan) item) ∨
        world.state.ledger.Awaits item.path.join
  refreshed : (∀ item ∈ plan, io.writes item = true) → Reads io.faults plan (writtenAt plan) →
    ∀ item ∈ plan,
      LeftWith (Removed plan (writtenAt plan) (io.order.run (planPaths plan)) item)
        (item.path.join ∈ planPaths plan ∨ hasHash ws world item (writtenAt plan item))
        (writtenAt plan item) ∨ world.state.ledger.Awaits item.path.join
  compensated : (∀ item ∈ plan, io.writes item = true) →
    ¬Reads io.faults plan (writtenAt plan) → Reads io.compensateFaults plan (io.left plan) →
    ∀ item ∈ plan,
      LeftWith (Removed plan (io.left plan) (io.compensateOrder.run (planPaths plan)) item)
        (item.path.join ∈ planPaths plan ∨
          LeftWith (Removed plan (writtenAt plan)
              (beforeFault io.faults plan (writtenAt plan) (io.order.run (planPaths plan))) item)
            (hasHash ws world item (io.left plan item)) (io.left plan item))
        (io.left plan item) ∨ world.state.ledger.Awaits item.path.join

end

section

variable {ws : Workspace} {io : CommitIo} {plan : List PlannedFile} {world : World}

theorem leavesKnown_of_stopped (incomplete : ¬∀ item ∈ plan, io.writes item = true) :
    LeavesKnown ws io plan world ↔ ∀ item ∈ plan,
      (∃ other ∈ io.written plan, other.path.components = item.path.components) →
        hasHash ws world item (io.left (io.written plan) item) ∨
          world.state.ledger.Awaits item.path.join :=
  ⟨fun leaves => leaves.stopped incomplete,
    fun known => ⟨fun _ => known, fun complete => absurd complete incomplete,
      fun complete => absurd complete incomplete⟩⟩

theorem leavesKnown_of_refreshed (complete : ∀ item ∈ plan, io.writes item = true)
    (read : Reads io.faults plan (writtenAt plan)) :
    LeavesKnown ws io plan world ↔ ∀ item ∈ plan,
      LeftWith (Removed plan (writtenAt plan) (io.order.run (planPaths plan)) item)
        (item.path.join ∈ planPaths plan ∨ hasHash ws world item (writtenAt plan item))
        (writtenAt plan item) ∨ world.state.ledger.Awaits item.path.join :=
  ⟨fun leaves => leaves.refreshed complete read,
    fun known => ⟨fun incomplete => absurd complete incomplete, fun _ _ => known,
      fun _ unread => absurd read unread⟩⟩

theorem leavesKnown_of_compensated (complete : ∀ item ∈ plan, io.writes item = true)
    (unread : ¬Reads io.faults plan (writtenAt plan))
    (again : Reads io.compensateFaults plan (io.left plan)) :
    LeavesKnown ws io plan world ↔ ∀ item ∈ plan,
      LeftWith (Removed plan (io.left plan) (io.compensateOrder.run (planPaths plan)) item)
        (item.path.join ∈ planPaths plan ∨
          LeftWith (Removed plan (writtenAt plan)
              (beforeFault io.faults plan (writtenAt plan) (io.order.run (planPaths plan))) item)
            (hasHash ws world item (io.left plan item)) (io.left plan item))
        (io.left plan item) ∨ world.state.ledger.Awaits item.path.join :=
  ⟨fun leaves => leaves.compensated complete unread again,
    fun known => ⟨fun incomplete => absurd complete incomplete, fun _ read => absurd read unread,
      fun _ _ _ => known⟩⟩

theorem leavesKnown_of_queued (complete : ∀ item ∈ plan, io.writes item = true)
    (unread : ¬Reads io.faults plan (writtenAt plan))
    (unreadAgain : ¬Reads io.compensateFaults plan (io.left plan)) : LeavesKnown ws io plan world :=
  ⟨fun incomplete => absurd complete incomplete, fun _ read => absurd read unread,
    fun _ _ again => absurd again unreadAgain⟩

end

section

variable {ws : Workspace} {plan : List PlannedFile} {world : World}

theorem known_iff {item : PlannedFile} {content : Option Text}
    (holds : world.disk.fileAt item.path.components = content.map Text.bytes) :
    Known ws world item.path ↔
      world.state.shared.index.hashAt item.path.text = content.map ws.contentHash ∨
        world.state.ledger.Awaits item.path.join := by
  rw [Known, agrees_iff holds]

section

variable {faults : ReadFaults} {content : PlannedFile → Option Text} {order : HashOrder}
  {start : CodeIndex} {disk : Disk}

theorem hashAt_refreshed_iff (indexable : ∀ item ∈ plan, IndexablePath ws item.path)
    (texts : ∀ item ∈ plan, ∀ c, content item = some c → IndexableText ws c)
    (files : ∀ item ∈ plan, disk.fileAt item.path.components = (content item).map Text.bytes)
    (reads : Reads faults plan content) {item : PlannedFile} (mem : item ∈ plan) :
    (ws.refreshedIndex disk faults (order.run (planPaths plan)) start).hashAt item.path.text =
        (content item).map ws.contentHash ↔
      LeftWith (Removed plan content (order.run (planPaths plan)) item)
        (item.path.join ∈ planPaths plan ∨
          start.hashAt item.path.text = (content item).map ws.contentHash) (content item) := by
  have listed := order.perm (planPaths plan)
  have through : ws.refreshed disk faults (order.run (planPaths plan)) =
      order.run (planPaths plan) := ws.refreshed_eq_self fun path inPaths =>
    (readable_plan ws indexable texts files).mpr reads path (listed.mem_iff.mp inPaths)
  have decided := hashAt_refreshed_plan ws indexable texts files through
    ((listed.map _).nodup_iff.mpr (nodup_planPaths plan))
    (fun path inPaths => mem_planPaths (listed.mem_iff.mp inPaths)) start mem
  rw [leftWith_iff decided.1 decided.2]
  refine LeftWith.congr ?_
  by_cases own : item.path.join ∈ planPaths plan
  · simp [listed.mem_iff, own]
  · simp [listed.mem_iff, own]

/-- A refresh that may have failed has not gone through a spelling that is not listed, and
can only have taken it out of the index. -/
theorem hashAt_failed_refresh_iff (indexable : ∀ item ∈ plan, IndexablePath ws item.path)
    (texts : ∀ item ∈ plan, ∀ c, content item = some c → IndexableText ws c)
    (files : ∀ item ∈ plan, disk.fileAt item.path.components = (content item).map Text.bytes)
    {item : PlannedFile} (mem : item ∈ plan) (unlisted : item.path.join ∉ planPaths plan)
    {left : Option Text} :
    (ws.refreshedIndex disk faults (order.run (planPaths plan)) start).hashAt item.path.text =
        left.map ws.contentHash ↔
      LeftWith (Removed plan content
          (beforeFault faults plan content (order.run (planPaths plan))) item)
        (start.hashAt item.path.text = left.map ws.contentHash) left := by
  have listed := order.perm (planPaths plan)
  have planned : ∀ path ∈ order.run (planPaths plan), ∃ item ∈ plan, item.path.join = path :=
    fun path inPaths => mem_planPaths (listed.mem_iff.mp inPaths)
  have part : (beforeFault faults plan content (order.run (planPaths plan))).Sublist _ :=
    List.takeWhile_sublist _
  have decided := hashAt_refreshed_plan ws indexable texts files
    (refreshed_plan ws indexable texts files planned)
    (List.Nodup.sublist (part.map _) ((listed.map _).nodup_iff.mpr (nodup_planPaths plan)))
    (fun path inPaths => planned path (part.subset inPaths)) start mem
  rw [if_neg fun inPart => unlisted (listed.mem_iff.mp (part.subset inPart))] at decided
  exact leftWith_iff decided.1 decided.2

theorem known_plan_refreshed_iff {state : ReconciledState}
    (indexable : ∀ item ∈ plan, IndexablePath ws item.path)
    (texts : ∀ item ∈ plan, ∀ c, content item = some c → IndexableText ws c)
    (files : ∀ item ∈ plan, disk.fileAt item.path.components = (content item).map Text.bytes)
    (reads : Reads faults plan content)
    (index : state.shared.index =
      ws.refreshedIndex disk faults (order.run (planPaths plan)) start) :
    (∀ item ∈ plan, Known ws ⟨disk, state⟩ item.path) ↔ ∀ item ∈ plan,
      LeftWith (Removed plan content (order.run (planPaths plan)) item)
        (item.path.join ∈ planPaths plan ∨
          start.hashAt item.path.text = (content item).map ws.contentHash)
        (content item) ∨ state.ledger.Awaits item.path.join := by
  refine forall₂_congr fun item mem => ?_
  rw [known_iff (files item mem), index, hashAt_refreshed_iff indexable texts files reads mem]

end

theorem known_plan_stopped_iff {io : CommitIo} {disk : Disk} {state : ReconciledState}
    (agree : ∀ item ∈ plan, Agrees ws world item.path)
    (index : state.shared.index = world.state.shared.index)
    (files : disk.fileAt = io.compensated (io.written plan) world.disk.fileAt) :
    (∀ item ∈ plan, Known ws ⟨disk, state⟩ item.path) ↔ ∀ item ∈ plan,
      (∃ other ∈ io.written plan, other.path.components = item.path.components) →
        hasHash ws world item (io.left (io.written plan) item) ∨
          state.ledger.Awaits item.path.join := by
  refine forall₂_congr fun item mem => ?_
  by_cases named : ∃ other ∈ io.written plan, other.path.components = item.path.components
  · rw [hasHash, ← index]
    exact (known_iff (by rw [files]; exact fileAt_compensated named _)).trans
      ⟨fun known _ => known, fun known => known named⟩
  · refine iff_of_true (.inl ?_) fun other => absurd other named
    rw [Agrees, index, files, fileAt_compensated_other named]
    exact agree item mem

theorem awaits_markPending (ledger : ChangeLedger) {item : PlannedFile} (mem : item ∈ plan) :
    (ledger.markPending (planPaths plan)).Awaits item.path.join :=
  ⟨rfl, exists_key_foldl_insertPath.mpr (.inl (key_mem_planPaths mem))⟩

end

/-- After a commit attempt every planned file agrees with the index or is queued
exactly when the writes, reads and orders of the attempt leave it so. -/
theorem commitPlan_known_iff (ws : Workspace) (io : CommitIo) (plan : List PlannedFile)
    (requestId : Text) (world : World) (indexable : ∀ item ∈ plan, item.Indexable ws)
    (agree : ∀ item ∈ plan, Agrees ws world item.path) :
    (∀ item ∈ plan, Known ws (ws.commitPlan io plan requestId world).2 item.path) ↔
      LeavesKnown ws io plan world := by
  have outcome := ws.commitPlan_outcome io plan requestId world
  revert outcome
  generalize ws.commitPlan io plan requestId world = result
  rcases result with ⟨result, world'⟩
  intro outcome
  have paths := fun item mem => (indexable item mem).path
  have self : ∀ item ∈ plan, ∃ other ∈ plan, other.path.components = item.path.components :=
    fun item mem => ⟨item, mem, rfl⟩
  have texts : ∀ item ∈ plan, ∀ c, writtenAt plan item = some c → IndexableText ws c :=
    fun item mem => PlannedFile.Indexable.written indexable (List.Subset.refl plan) mem
  cases outcome with
  | @writeFailed item cause report disk markers stopped described files =>
    have incomplete : ¬∀ item ∈ plan, io.writes item = true := by
      intro complete
      rw [List.dropWhile_eq_nil_iff.mpr complete] at stopped
      cases stopped
    rw [leavesKnown_of_stopped incomplete]
    exact known_plan_stopped_iff agree rfl files
  | @committed written refreshed published markers complete writes reads refresh publish =>
    have files : ∀ item ∈ plan, written.fileAt item.path.components =
        (writtenAt plan item).map Text.bytes := by
      intro item mem
      rw [writes]
      exact fileAt_written (self item mem) _
    have read := (readable_plan ws paths texts files).mp reads
    have index : published.index = ws.refreshedIndex written io.faults
        (io.order.run (planPaths plan)) world.state.shared.index := by
      rw [publish]
      calc
        _ = refreshed.index := refreshed.applyRepoStatus_index io.status
        _ = _ := by rw [refresh]; rfl
    rw [leavesKnown_of_refreshed complete read]
    exact known_plan_refreshed_iff paths texts files read index
  | @refreshFailed cause report written restored refreshed compensated ledger markers complete
      at_write at_restore writes fails described files refresh compensation pending =>
    have afterFiles : ∀ item ∈ plan, written.fileAt item.path.components =
        (writtenAt plan item).map Text.bytes := by
      intro item mem
      rw [writes]
      exact fileAt_written (self item mem) _
    have unread : ¬Reads io.faults plan (writtenAt plan) := by
      rwa [← readable_plan ws paths texts afterFiles]
    have leftTexts : ∀ item ∈ plan, ∀ c, io.left plan item = some c → IndexableText ws c :=
      fun item mem => PlannedFile.Indexable.left io indexable mem
    have leftFiles : ∀ item ∈ plan, restored.fileAt item.path.components =
        (io.left plan item).map Text.bytes := by
      intro item mem
      rw [files]
      exact fileAt_compensated (self item mem) _
    have readable : (∀ path ∈ planPaths plan, _) ↔ Reads io.compensateFaults plan (io.left plan) :=
      readable_plan ws paths leftTexts leftFiles
    by_cases again : Reads io.compensateFaults plan (io.left plan)
    · rw [if_pos (readable.mpr again)] at pending
      subst pending
      have index : compensated.index = ws.refreshedIndex restored io.compensateFaults
          (io.compensateOrder.run (planPaths plan)) refreshed.index := by
        rw [compensation]; rfl
      have first : refreshed.index = ws.refreshedIndex written io.faults
          (io.order.run (planPaths plan)) world.state.shared.index := by
        rw [refresh]; rfl
      rw [leavesKnown_of_compensated complete unread again]
      refine (known_plan_refreshed_iff paths leftTexts leftFiles again index).trans ?_
      refine forall₂_congr fun item mem => or_congr (LeftWith.congr ?_) Iff.rfl
      refine or_congr_right' fun own => ?_
      rw [first]
      exact hashAt_failed_refresh_iff paths texts afterFiles mem own
    · rw [if_neg (readable.not.mpr again)] at pending
      subst pending
      exact iff_of_true (fun item mem => .inr (awaits_markPending _ mem))
        (leavesKnown_of_queued complete unread again)

open Sample in
theorem commitPlan_known_iff_calm : LeavesKnown .plain .calm twoFiles oldFile ∧
    ∀ item ∈ twoFiles,
      Known .plain (Workspace.plain.commitPlan .calm twoFiles [] oldFile).2 item.path := by
  have complete : ∀ item ∈ twoFiles, CommitIo.calm.writes item = true := by decide
  have present : ∀ top ∈ twoFiles, writtenAt twoFiles top ≠ none := by decide
  have listed : ∀ item ∈ twoFiles, item.path.join ∈ planPaths twoFiles := by decide
  have leaves : LeavesKnown .plain .calm twoFiles oldFile := by
    refine ⟨fun incomplete => absurd complete incomplete, fun _ _ item mem => .inl (.inr ⟨?_, ?_⟩),
      fun _ unread => absurd (fun _ _ _ => rfl) unread⟩
    · rintro ⟨top, h, absent, -⟩
      exact present top h absent
    · exact .inl (listed item mem)
  exact ⟨leaves,
    (commitPlan_known_iff .plain .calm twoFiles [] oldFile (by decide) (by decide)).mpr leaves⟩

-- The first file cannot be put back, so the disk has its new content and the
-- index its old one, and nothing is queued.
open Sample in
theorem commitPlan_leaves_unknown :
    Distinct twoFiles ∧ (∀ item ∈ twoFiles, item.Indexable .plain) ∧
      (∀ item ∈ twoFiles, Agrees .plain oldFile item.path) ∧
      ¬∀ item ∈ twoFiles,
        Known .plain (Workspace.plain.commitPlan stuck twoFiles [] oldFile).2 item.path := by
  decide

end CodeWeave
