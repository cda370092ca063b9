import CodeWeave.Defs.Index.PlainPath
import CodeWeave.Defs.Index.ScanLaws
import Mathlib.Data.List.ReduceOption

namespace CodeWeave

open Overwrite

/-- No ignore files, extra exclusion patterns or artifact paths. -/
structure Workspace.Unfiltered (ws : Workspace) : Prop where
  matcher : ws.matcher = fun _ _ => false
  walkIgnored : ws.walkIgnored = fun _ _ => false
  artifactPaths : ws.artifactPaths = []

structure TextTree (ws : Workspace) (disk : Disk) : Prop where
  plain : ∀ path node, disk.node path = some node → PlainPath path
  parents : ∀ path node top, disk.node path = some node → top <+: path → top ≠ path →
    disk.node top = some .dir
  texts : ∀ path bytes, disk.fileAt path = some bytes →
    ∃ content : Text, bytes = content.bytes ∧ content.bytes.size ≤ ws.maxFileBytes

def isText (ws : Workspace) (bytes : ByteArray) : Bool :=
  (fromUtf8 bytes).any fun content => content.bytes.data = bytes.data ∧ bytes.size ≤ ws.maxFileBytes

theorem Disk.mem_keys_of_node {disk : Disk} {path : List Text} {node : Node}
    (here : disk.node path = some node) (named : path ≠ []) : path ∈ disk.nodes.keys := by
  rw [Disk.node_of_ne disk named] at here
  rw [← AList.mem_keys, ← AList.lookup_isSome, here]
  rfl

theorem TextTree.of_keys {ws : Workspace} {disk : Disk}
    (plain : ∀ path ∈ disk.nodes.keys, PlainPath path)
    (parents : ∀ path ∈ disk.nodes.keys, ∀ top ∈ path.inits, top ≠ path →
      (match disk.node top with | some .dir => true | _ => false) = true)
    (texts : ∀ path ∈ disk.nodes.keys, (disk.fileAt path).all (isText ws) = true) :
    TextTree ws disk where
  plain path node here := by
    by_cases root : path = []
    · subst root
      exact fun name mem => by cases mem
    · exact plain path (Disk.mem_keys_of_node here root)
  parents path node top here above other := by
    by_cases root : path = []
    · subst root
      exact absurd (List.prefix_nil.mp above) other
    · have dir := parents path (Disk.mem_keys_of_node here root) top
        ((List.mem_inits _ _).mpr above) other
      split at dir
      · assumption
      · cases dir
  texts path bytes file := by
    obtain ⟨modifiedNs, node⟩ := Disk.fileAt_eq_some.mp file
    have named : path ≠ [] := by
      rintro rfl
      cases file
    have text := texts path (Disk.mem_keys_of_node node named)
    rw [file, Option.all_some, isText, Option.any_eq_true] at text
    obtain ⟨content, -, same⟩ := text
    have both := of_decide_eq_true same
    have bytes := ByteArray.ext both.1.symm
    exact ⟨content, bytes, bytes ▸ both.2⟩

def hasNul (content : Text) : Bool := (content.bytes.data.toList.take 8192).any (· = 0)

def textAt (disk : Disk) (path : List Text) : Option Text :=
  ((disk.fileAt path).bind fromUtf8).filter fun content => !hasNul content

def Listed (ws : Workspace) (disk : Disk) (key : Text) (hash : ContentHash) : Prop :=
  ∃ path content, ws.excludedPath (pathOf path) = false ∧ textAt disk path = some content ∧
    joinSegments path = key ∧ ws.contentHash content = hash

theorem textAt_eq_some {disk : Disk} {path : List Text} {content : Text}
    (h : textAt disk path = some content) :
    ∃ bytes, disk.fileAt path = some bytes ∧ fromUtf8 bytes = some content ∧
      hasNul content = false := by
  rw [textAt, Option.filter_eq_some_iff] at h
  obtain ⟨bytes, file, decodes⟩ := Option.bind_eq_some_iff.mp h.1
  exact ⟨bytes, file, decodes, by simpa using h.2⟩

theorem mem_mapM_ok {A B : Type} {f : A → AppResult B} {as : List A} {bs : List B}
    (ok : as.mapM f = .ok bs) (b : B) : b ∈ bs ↔ ∃ a ∈ as, f a = .ok b := by
  induction as generalizing bs with
  | nil =>
    cases ok
    simp
  | cons a rest ih =>
    rw [List.mapM_cons] at ok
    cases first : f a with
    | error error => rw [first] at ok; cases ok
    | ok found =>
      cases later : rest.mapM f with
      | error error => rw [first, later] at ok; cases ok
      | ok others =>
        rw [first, later] at ok
        cases ok
        rw [List.mem_cons, ih later, List.exists_mem_cons_iff, first, Except.ok.injEq, eq_comm]

theorem lookup_foldl_insert (ws : Workspace) (entries : List FileEntry) (index : CodeIndex) :
    (entries.foldl (fun index entry => index.insert ws entry) index).lookup =
      applyAll (entries.map fun entry => (Effect.insert entry).patch) index.lookup := by
  induction entries generalizing index with
  | nil => rfl
  | cons entry rest ih =>
    rw [List.foldl_cons, ih, List.map_cons, applyAll_cons, ← Effect.lookup_run ws]
    rfl

theorem hashAt_foldl_insert (ws : Workspace) {entries : List FileEntry}
    (agree : ∀ first ∈ entries, ∀ second ∈ entries, first.path = second.path →
      first.hash = second.hash) (key : Text) (hash : ContentHash) :
    (entries.foldl (fun index entry => index.insert ws entry) CodeIndex.empty).hashAt key =
      some hash ↔ ∃ entry ∈ entries, entry.path = key ∧ entry.hash = hash := by
  rw [CodeIndex.hashAt, lookup_foldl_insert]
  cases applyAll_cases (entries.map fun entry => (Effect.insert entry).patch) key
      CodeIndex.empty.lookup with
  | inl untouched =>
    rw [applyAll_untouched untouched]
    refine iff_of_false (fun found => by cases found) ?_
    rintro ⟨entry, mem, rfl, -⟩
    have := untouched _ (List.mem_map.mpr ⟨entry, mem, rfl⟩)
    simp [Effect.patch] at this
  | inr decided =>
    obtain ⟨pre, patch, post, split, -, decides⟩ := decided
    have mem : patch ∈ entries.map fun entry => (Effect.insert entry).patch := by rw [split]; simp
    obtain ⟨last, inEntries, rfl⟩ := List.mem_map.mp mem
    by_cases own : key = last.path
    · rw [Effect.patch, if_pos own] at decides
      rw [← Option.some.inj decides, Option.map_some, Option.some.injEq]
      constructor
      · intro same
        exact ⟨last, inEntries, own.symm, same⟩
      · rintro ⟨entry, present, names, rfl⟩
        exact agree last inEntries entry present (own.symm.trans names.symm)
    · rw [Effect.patch, if_neg own] at decides
      cases decides

section

variable {ws : Workspace} {disk : Disk} {path : List Text}

theorem Disk.isDir_pathOf (plain : PlainPath path) : disk.isDir (pathOf path) =
    match disk.node path with
    | some .dir => true
    | some (.link isDir _) => isDir
    | _ => false := by
  have parts : segments (joinSegments path) = path := segments_joinSegments plain
  cases node : disk.node path with
  | none => simp only [pathOf, Disk.isDir, parts, node]
  | some found => cases found <;> simp only [pathOf, Disk.isDir, parts, node]

theorem Disk.named_of_fileAt {bytes : ByteArray} (file : disk.fileAt path = some bytes) :
    path ≠ [] := by
  rintro rfl
  cases file

theorem Disk.mem_keys_of_fileAt {bytes : ByteArray} (file : disk.fileAt path = some bytes) :
    path ∈ disk.nodes.keys := by
  obtain ⟨modifiedNs, node⟩ := Disk.fileAt_eq_some.mp file
  exact Disk.mem_keys_of_node node (Disk.named_of_fileAt file)

theorem isDir_of_fileAt {bytes : ByteArray} (plain : PlainPath path)
    (file : disk.fileAt path = some bytes) : disk.isDir (pathOf path) = false := by
  obtain ⟨modifiedNs, node⟩ := Disk.fileAt_eq_some.mp file
  rw [Disk.isDir_pathOf plain, node]

theorem included_pathOf (plain : PlainPath path)
    (included : ws.excludedPath (pathOf path) = false) :
    path.any ignoredPathComponent = false ∧ ws.isTempFile (pathOf path) = false := by
  rw [Workspace.excludedPath, Bool.or_eq_false_iff, PathBuf.components_pathOf plain,
    List.any_append, Bool.or_eq_false_iff] at included
  exact ⟨included.2.2, included.1⟩

theorem excludedDir_pathOf {parts : List Text} (plain : PlainPath parts) (named : parts ≠ [])
    (watched : parts.any ignoredPathComponent = false) : ws.excludedDir (pathOf parts) = false := by
  have final := List.getLast?_eq_some_getLast named
  rw [Workspace.excludedDir, PathBuf.fileName_pathOf plain ws.root final, Option.any_some]
  rw [List.any_eq_false] at watched
  exact Bool.eq_false_iff.mpr (watched _ (List.getLast_mem named))

theorem plain_of_textAt {content : Text} (tree : TextTree ws disk)
    (text : textAt disk path = some content) : PlainPath path := by
  obtain ⟨bytes, file, -⟩ := textAt_eq_some text
  obtain ⟨modifiedNs, node⟩ := Disk.fileAt_eq_some.mp file
  exact tree.plain path _ node

theorem readEntry_pathOf (tree : TextTree ws disk) (faults : ReadFaults) (cache : SymbolCache)
    (file : (disk.fileAt path).isSome) :
    (∃ error, ws.readEntry disk faults (pathOf path) cache = .error error) ∨
    (textAt disk path = none ∧ ws.readEntry disk faults (pathOf path) cache = .ok none) ∨
    ∃ content entry, textAt disk path = some content ∧
      ws.readEntry disk faults (pathOf path) cache = .ok (some entry) ∧
      entry.path = joinSegments path ∧ entry.hash = ws.contentHash content := by
  obtain ⟨bytes, found⟩ := Option.isSome_iff_exists.mp file
  obtain ⟨content, rfl, fits⟩ := tree.texts path bytes found
  obtain ⟨modifiedNs, node⟩ := Disk.fileAt_eq_some.mp found
  have plain := tree.plain path _ node
  have here : disk.fileAt plain.relPath.components = some content.bytes := by
    rwa [plain.relPath_components]
  have text : textAt disk path = if hasNul content then none else some content := by
    rw [textAt, found, Option.bind_some, fromUtf8_bytes, Option.filter_some]
    cases hasNul content <;> rfl
  rw [← plain.relPath_join]
  cases fault : faults path with
  | some error =>
    refine .inl ⟨.internal error, ?_⟩
    have read : disk.readFile faults plain.relPath ws.maxFileBytes = .error (.internal error) := by
      simp [Disk.readFile, node, fault]
    simp [Workspace.readEntry, read]
  | none =>
    have fine : faults plain.relPath.components = none := by rwa [plain.relPath_components]
    cases nul : hasNul content with
    | true =>
      refine .inr (.inl ⟨by rw [text, nul]; rfl, ?_⟩)
      have read : disk.readFile faults plain.relPath ws.maxFileBytes =
          .ok (some ⟨content.bytes, content.bytes.size, modifiedNs⟩) := by
        simp [Disk.readFile, node, fault, Nat.not_lt.mpr fits]
      rw [hasNul] at nul
      simp only [Workspace.readEntry, RelPath.relative_join, RelPath.new_self, read, nul, if_true]
    | false =>
      obtain ⟨entry, read, names, -, hash⟩ := ws.readEntry_text faults ⟨fits, nul⟩ here fine cache
      exact .inr (.inr ⟨content, entry, by rw [text, nul]; rfl, read, names, hash⟩)

theorem effectOf_absent {faults : ReadFaults} (plain : PlainPath path) (named : path ≠ [])
    (absent : disk.fileAt path = none) :
    ws.effectOf disk faults (pathOf path) = .removeTree (joinSegments path) := by
  have effect : ws.refreshEffect disk faults plain.relPath.join =
      .ok (.removeTree plain.relPath.text) :=
    ws.refreshEffect_absent faults (by rwa [plain.relPath_components])
      (by rwa [plain.relPath_components])
  rw [plain.relPath_join, plain.relPath_text] at effect
  rw [Workspace.effectOf, effect]

variable (unfiltered : ws.Unfiltered) (tree : TextTree ws disk)

include unfiltered

theorem watched_pathOf (plain : PlainPath path) (named : path ≠ [])
    (included : ws.excludedPath (pathOf path) = false) (isDir : Bool) :
    ws.isIgnored (pathOf path) isDir = false := by
  rw [Workspace.isIgnored_pathOf unfiltered.matcher plain named]
  exact (included_pathOf plain included).1

include tree

theorem walked_iff : ws.walked disk [] true path = true ↔
    (disk.fileAt path).isSome ∧ ws.excludedPath (pathOf path) = false := by
  simp only [Workspace.walked, Bool.and_eq_true, Bool.not_eq_true']
  constructor
  · rintro ⟨⟨⟨⟨-, file⟩, -⟩, included⟩, -⟩
    exact ⟨file, included⟩
  · rintro ⟨file, included⟩
    obtain ⟨bytes, found⟩ := Option.isSome_iff_exists.mp file
    obtain ⟨modifiedNs, node⟩ := Disk.fileAt_eq_some.mp found
    have plain := tree.plain path _ node
    have named := Disk.named_of_fileAt found
    have watched := (included_pathOf plain included).1
    refine ⟨⟨⟨⟨rfl, file⟩, ?_⟩, included⟩, watched_pathOf unfiltered plain named included false⟩
    rw [List.all_eq_true]
    intro top inInits
    have above := (List.mem_inits _ _).mp inInits
    have plainTop := plain.of_prefix above
    by_cases root : top = []
    · subst root
      rfl
    · have watchedTop : top.any ignoredPathComponent = false := by
        rw [List.any_eq_false] at watched ⊢
        exact fun name mem => watched name (above.subset mem)
      have enters : ∀ isDir, ws.walkEntry true top isDir = true := by
        intro isDir
        simp [Workspace.walkEntry, excludedDir_pathOf plainTop root watchedTop,
          Workspace.isIgnored_pathOf unfiltered.matcher plainTop root, watchedTop,
          unfiltered.walkIgnored]
      rw [Bool.or_eq_true]
      right
      split
      · exact enters false
      · next other => simp [tree.parents path _ top node above other, enters]

section

variable {faults : ReadFaults} {entries : List (Option FileEntry)}
  (reads : ((disk.nodes.keys.filter (ws.walked disk [] true)).mapM
    fun path => ws.readEntry disk faults (pathOf path) ∅) = .ok entries)

include reads

theorem source_of_scanned {entry : FileEntry} (mem : entry ∈ entries.reduceOption) :
    ∃ path content, ws.excludedPath (pathOf path) = false ∧ textAt disk path = some content ∧
      entry.path = joinSegments path ∧ entry.hash = ws.contentHash content := by
  rw [List.reduceOption_mem_iff, mem_mapM_ok reads] at mem
  obtain ⟨path, inKeys, read⟩ := mem
  obtain ⟨file, included⟩ := (walked_iff unfiltered tree).mp (List.mem_filter.mp inKeys).2
  obtain ⟨error, fails⟩ | ⟨-, skipped⟩ | ⟨content, other, text, same, names, hashes⟩ :=
    readEntry_pathOf tree faults ∅ file
  · rw [fails] at read
    cases read
  · rw [skipped] at read
    cases read
  · rw [same] at read
    cases read
    exact ⟨path, content, included, text, names, hashes⟩

theorem scanned_of_source {content : Text} (included : ws.excludedPath (pathOf path) = false)
    (text : textAt disk path = some content) :
    ∃ entry ∈ entries.reduceOption, entry.path = joinSegments path ∧
      entry.hash = ws.contentHash content := by
  obtain ⟨bytes, found, -⟩ := textAt_eq_some text
  have file : (disk.fileAt path).isSome := by rw [found]; rfl
  have inKeys : path ∈ disk.nodes.keys.filter (ws.walked disk [] true) :=
    List.mem_filter.mpr ⟨Disk.mem_keys_of_fileAt found,
      (walked_iff unfiltered tree).mpr ⟨file, included⟩⟩
  have ok := (Workspace.mapM_isOk _ _).mp (by rw [reads]; rfl) path inKeys
  obtain ⟨error, fails⟩ | ⟨without, -⟩ | ⟨content', entry, text', same, names, hashes⟩ :=
    readEntry_pathOf tree faults ∅ file
  · rw [fails] at ok
    cases ok
  · rw [without] at text
    cases text
  · rw [Option.some.inj (text'.symm.trans text)] at hashes
    refine ⟨entry, ?_, names, hashes⟩
    rw [List.reduceOption_mem_iff, mem_mapM_ok reads]
    exact ⟨path, inKeys, same⟩

end

theorem hashAt_scan {io : ScanIo} {index : CodeIndex} (ok : ws.scan disk io = .ok index)
    (key : Text) (hash : ContentHash) :
    index.hashAt key = some hash ↔ Listed ws disk key hash := by
  have walk : ws.scanDirectory disk io.faults [] true ∅ .empty = .ok index := by
    rw [Workspace.scan, Workspace.scanWorkspace, unfiltered.artifactPaths] at ok
    cases walk : ws.scanDirectory disk io.faults [] true ∅ .empty with
    | error error => rw [walk] at ok; cases ok
    | ok walked => rw [walk] at ok; exact ok
  rw [Workspace.scanDirectory] at walk
  split at walk
  · cases walk
  · next entries reads =>
    cases walk
    rw [hashAt_foldl_insert]
    · constructor
      · rintro ⟨entry, mem, names, hashes⟩
        obtain ⟨path, content, included, text, path_eq, hash_eq⟩ :=
          source_of_scanned unfiltered tree reads mem
        exact ⟨path, content, included, text, path_eq.symm.trans names, hash_eq.symm.trans hashes⟩
      · rintro ⟨path, content, included, text, names, hashes⟩
        obtain ⟨entry, mem, path_eq, hash_eq⟩ :=
          scanned_of_source unfiltered tree reads included text
        exact ⟨entry, mem, path_eq.trans names, hash_eq.trans hashes⟩
    · intro first inFirst second inSecond same
      obtain ⟨path, content, -, text, path_eq, hash_eq⟩ :=
        source_of_scanned unfiltered tree reads inFirst
      obtain ⟨path', content', -, text', path_eq', hash_eq'⟩ :=
        source_of_scanned unfiltered tree reads inSecond
      have paths : path = path' :=
        joinSegments_injOn (plain_of_textAt tree text) (plain_of_textAt tree text')
          (by rw [← path_eq, ← path_eq', same])
      subst paths
      rw [hash_eq, hash_eq', Option.some.inj (text.symm.trans text')]

section

variable {faults : ReadFaults} (plain : PlainPath path) (named : path ≠ [])
  (readable : ws.readable disk faults (pathOf path) = true)

include plain named readable

theorem effectOf_file (file : (disk.fileAt path).isSome) :
    (ws.effectOf disk faults (pathOf path) = .skip ∧
      (ws.excludedPath (pathOf path) = true ∨ textAt disk path = none)) ∨
    ∃ content entry, ws.excludedPath (pathOf path) = false ∧ textAt disk path = some content ∧
      ws.effectOf disk faults (pathOf path) = .insert entry ∧
      entry.path = joinSegments path ∧ entry.hash = ws.contentHash content := by
  have regular : disk.isRegularFile plain.relPath = true := by
    rw [Disk.isRegularFile, plain.relPath_components]
    exact file
  have blank : ¬(plain.relPath.text = [] ∨ plain.relPath.text = ['.']) :=
    RelPath.text_not_blank (by rwa [plain.relPath_components])
  rw [Workspace.readable] at readable
  rw [← plain.relPath_join] at readable ⊢
  rw [Workspace.effectOf]
  simp only [Workspace.refreshEffect, RelPath.relative_join, if_neg blank, RelPath.new_self,
    regular, Bool.not_true, Bool.false_eq_true, if_false] at readable ⊢
  cases included : ws.excludedPath plain.relPath.join with
  | true =>
    simp
  | false =>
    have watched := watched_pathOf unfiltered plain named included false
    rw [← plain.relPath_join] at watched
    simp only [watched, included, Bool.or_self, Bool.false_eq_true, if_false] at readable ⊢
    obtain ⟨error, fails⟩ | ⟨without, skipped⟩ | ⟨content, entry, text, same, names, hashes⟩ :=
      readEntry_pathOf tree faults ∅ file
    · rw [plain.relPath_join, fails] at readable
      cases readable
    · rw [plain.relPath_join, skipped]
      exact .inl ⟨rfl, .inr without⟩
    · rw [plain.relPath_join, same]
      exact .inr ⟨content, entry, trivial, text, rfl, names, hashes⟩

end

end

end CodeWeave
