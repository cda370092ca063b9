import CodeWeave.Defs.Index.SyntaxWalk
import CodeWeave.Defs.Index.TreeLaws

namespace CodeWeave

variable {ws : Workspace} {parsers : SyntaxParsers}

def SymbolCache.Extracted (parsers : SyntaxParsers) (cache : SymbolCache) : Prop :=
  ∀ path hash symbols, cache.symbolsFor path hash = some symbols →
    ∃ content, symbols = extractSymbols parsers path content

theorem SymbolCache.extracted_empty : SymbolCache.Extracted parsers ∅ :=
  fun _ _ _ found => by cases found

structure FileEntry.Scanned (parsers : SyntaxParsers) (file : FileEntry) : Prop where
  placed : ∃ path : RelPath, path.text = file.path
  named : file.path ≠ []
  extracted : ∃ content, file.symbols = extractSymbols parsers file.path content

theorem FileEntry.Scanned.ordered {file : FileEntry} (scanned : file.Scanned parsers)
    {symbol : Symbol} (declared : symbol ∈ file.symbols) : symbol.Ordered := by
  obtain ⟨content, extracted⟩ := scanned.extracted
  rw [extracted] at declared
  exact ordered_of_mem_extractSymbols parsers symbol declared

/-- The indexes a server keeps: one that a scan made, and what refreshes make of it. -/
inductive Indexes (ws : Workspace) (parsers : SyntaxParsers) : CodeIndex → Prop
  | scan {disk : Disk} {io : ScanIo} {cache : SymbolCache} {index : CodeIndex} :
    cache.Extracted parsers → ws.scanWorkspace disk io cache = .ok index → Indexes ws parsers index
  | refresh {index : CodeIndex} (disk : Disk) (faults : ReadFaults) (paths : List PathBuf) :
    Indexes ws parsers index → Indexes ws parsers (ws.refreshPaths disk faults paths index).2

def CodeIndex.Scanned (parsers : SyntaxParsers) (index : CodeIndex) : Prop :=
  ∀ path file, index.lookup path = some file → file.Scanned parsers

theorem scanned_of_readEntry (walks : ws.extractSymbols = extractSymbols parsers) {disk : Disk}
    {faults : ReadFaults} {path : PathBuf} {cache : SymbolCache}
    (extracted : cache.Extracted parsers) {file : FileEntry}
    (read : ws.readEntry disk faults path cache = .ok (some file)) : file.Scanned parsers := by
  unfold Workspace.readEntry at read
  split at read
  · cases read
  · next relative _ =>
    split at read
    · cases read
    · cases read
    · next content_bytes found =>
      split at read
      · cases read
      · split at read
        · cases read
        · next content _ =>
          cases read
          refine ⟨⟨relative, rfl⟩, fun empty => ?_, ?_⟩
          · have root : relative.components = [] := by
              rw [RelPath.components, show relative.text = [] from empty]
              rfl
            rw [Disk.readFile, root, Disk.node] at found
            cases found
          · cases cached : cache.symbolsFor relative.text (ws.contentHash content) with
            | none => exact ⟨content, by simp only [Option.getD_none, walks]⟩
            | some symbols => exact extracted _ _ _ cached

namespace CodeIndex

variable {index : CodeIndex}

theorem Scanned.insert (scanned : index.Scanned parsers) {file : FileEntry}
    (read : file.Scanned parsers) : (index.insert ws file).Scanned parsers := by
  intro path other found
  rw [lookup_insert] at found
  split at found
  · cases found
    exact read
  · exact scanned path other found

theorem Scanned.removeTree (scanned : index.Scanned parsers) (top : Text) :
    (index.removeTree ws top).2.Scanned parsers := by
  intro path other found
  rw [lookup_removeTree] at found
  split at found
  · cases found
  · exact scanned path other found

theorem Scanned.run (scanned : index.Scanned parsers) {effect : Effect}
    (read : ∀ file, effect = .insert file → file.Scanned parsers) :
    (effect.run ws index).Scanned parsers := by
  cases effect with
  | skip => exact scanned
  | removeTree top => exact scanned.removeTree top
  | insert file => exact scanned.insert (read file rfl)

theorem Scanned.foldl_insert (scanned : index.Scanned parsers) {files : List FileEntry}
    (read : ∀ file ∈ files, file.Scanned parsers) :
    (files.foldl (fun index file => index.insert ws file) index).Scanned parsers := by
  induction files generalizing index with
  | nil => exact scanned
  | cons file rest ih =>
    exact ih (scanned.insert (read file List.mem_cons_self))
      fun other mem => read other (List.mem_cons_of_mem _ mem)

theorem Scanned.scanDirectory (walks : ws.extractSymbols = extractSymbols parsers) {disk : Disk}
    {faults : ReadFaults} {root : List Text} {respectIgnores : Bool} {cache : SymbolCache}
    (extracted : cache.Extracted parsers) (scanned : index.Scanned parsers) {after : CodeIndex}
    (ok : ws.scanDirectory disk faults root respectIgnores cache index = .ok after) :
    after.Scanned parsers := by
  rw [Workspace.scanDirectory] at ok
  split at ok
  · cases ok
  · next entries read =>
    cases ok
    refine scanned.foldl_insert fun file mem => ?_
    obtain ⟨path, -, found⟩ :=
      (mem_mapM_ok read (some file)).mp (List.reduceOption_mem_iff.mp mem)
    exact scanned_of_readEntry walks extracted found

theorem Scanned.scanArtifacts (walks : ws.extractSymbols = extractSymbols parsers) {disk : Disk}
    {io : ScanIo} {cache : SymbolCache} (extracted : cache.Extracted parsers) {texts : List Text}
    (scanned : index.Scanned parsers) {after : CodeIndex}
    (ok : ws.scanArtifacts disk io cache texts index = .ok after) : after.Scanned parsers := by
  induction texts generalizing index with
  | nil =>
    cases ok
    exact scanned
  | cons text rest ih =>
    rw [Workspace.scanArtifacts] at ok
    split at ok
    · cases ok
    · split at ok
      · exact ih scanned ok
      · cases ok
      · cases ok
      · split at ok
        · cases ok
        · next indexed => exact ih (scanned.scanDirectory walks extracted indexed) ok

theorem Scanned.refreshed (walks : ws.extractSymbols = extractSymbols parsers) {disk : Disk}
    {faults : ReadFaults} {paths : List PathBuf} (scanned : index.Scanned parsers) :
    (ws.refreshPaths disk faults paths index).2.Scanned parsers := by
  rw [Workspace.refreshPaths_snd, Workspace.refreshedIndex]
  generalize ws.refreshed disk faults paths = refreshed
  induction refreshed generalizing index with
  | nil => exact scanned
  | cons path rest ih =>
    refine ih (scanned.run fun file effect => ?_)
    exact scanned_of_readEntry walks SymbolCache.extracted_empty (ws.effectOf_insert effect)

end CodeIndex

theorem Indexes.scanned (walks : ws.extractSymbols = extractSymbols parsers) {index : CodeIndex}
    (indexes : Indexes ws parsers index) : index.Scanned parsers := by
  induction indexes with
  | @scan disk io cache index extracted ok =>
    rw [Workspace.scanWorkspace] at ok
    split at ok
    · cases ok
    · next walked =>
      have empty : CodeIndex.empty.Scanned parsers := fun _ _ found => by cases found
      exact (empty.scanDirectory walks extracted walked).scanArtifacts walks extracted ok
  | refresh disk faults paths _ ih => exact ih.refreshed walks

end CodeWeave
