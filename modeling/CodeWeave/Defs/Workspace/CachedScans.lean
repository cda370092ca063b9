import CodeWeave.Defs.Index.Cache
import CodeWeave.Defs.Workspace.Contents

namespace CodeWeave

/-- Every symbol list was extracted from the content its hash is of. -/
def SymbolCache.Genuine (ws : Workspace) (cache : SymbolCache) : Prop :=
  ∀ path content symbols, cache.symbolsFor path (ws.contentHash content) = some symbols →
    symbols = ws.extractSymbols path content

def CachedFile.Parsed (ws : Workspace) (file : CachedFile) : Prop :=
  ∃ content, file.hash = ws.contentHash content ∧
    file.symbols = ws.extractSymbols file.path content

/-- A cache file that a scan with these settings misses: there is none, it does not parse, or
it carries another schema or other settings. -/
def CacheMisses (codec : CacheCodec) (key : CacheKey) (file : Option ByteArray) : Prop :=
  ∀ bytes document, file = some bytes → codec.parse bytes = some document →
    document.schema ≠ cacheSchema ∨ document.key ≠ key

/-- A cache file that, where a scan with these settings uses it, holds what was parsed. -/
def CacheServes (codec : CacheCodec) (key : CacheKey) (ws : Workspace) (file : Option ByteArray) :
    Prop :=
  ∀ bytes document, file = some bytes → codec.parse bytes = some document →
    document.isFor key = true → ∀ cached ∈ document.files, cached.Parsed ws

theorem CacheMisses.serves {codec : CacheCodec} {key : CacheKey} {file : Option ByteArray}
    (misses : CacheMisses codec key file) (ws : Workspace) : CacheServes codec key ws file := by
  intro bytes document there parsed used
  obtain ⟨schema, settings⟩ := (document.isFor_iff key).mp used
  rcases misses bytes document there parsed with other | other
  · exact absurd schema other
  · exact absurd settings other

namespace SymbolCache

variable {ws : Workspace}

theorem genuine_empty : Genuine ws ∅ := fun _ _ _ found => by cases found

theorem symbolsFor_insert (cache : SymbolCache) (file : CachedFile) (path : Text)
    (hash : ContentHash) :
    symbolsFor (cache.insert file.path (file.hash, file.symbols)) path hash =
      if path = file.path then if file.hash = hash then some file.symbols else none
      else cache.symbolsFor path hash := by
  rw [symbolsFor]
  by_cases same : path = file.path
  · rw [same, AList.lookup_insert, if_pos rfl]
  · rw [AList.lookup_insert_ne same, if_neg same, symbolsFor]

theorem Genuine.insert (injective : Function.Injective ws.contentHash) {cache : SymbolCache}
    (genuine : cache.Genuine ws) {file : CachedFile} (parsed : file.Parsed ws) :
    Genuine ws (cache.insert file.path (file.hash, file.symbols)) := by
  intro path content symbols found
  rw [symbolsFor_insert] at found
  split at found
  · next same =>
    obtain ⟨source, hash, extracted⟩ := parsed
    rw [hash] at found
    split at found
    · next hashed =>
      cases found
      rw [extracted, same, injective hashed]
    · cases found
  · exact genuine path content symbols found

theorem genuine_symbolCache (injective : Function.Injective ws.contentHash)
    {document : CacheDocument} (parsed : ∀ file ∈ document.files, file.Parsed ws) :
    document.symbolCache.Genuine ws := by
  have each : ∀ (files : List CachedFile) (cache : SymbolCache),
      (∀ file ∈ files, file.Parsed ws) → cache.Genuine ws → Genuine ws
        (files.foldl (fun cache file => cache.insert file.path (file.hash, file.symbols))
          cache) := by
    intro files
    induction files with
    | nil => exact fun _ _ genuine => genuine
    | cons file rest ih =>
      intro cache parsed genuine
      exact ih _ (fun other mem => parsed other (List.mem_cons_of_mem _ mem))
        (genuine.insert injective (parsed file List.mem_cons_self))
  exact each document.files ∅ parsed genuine_empty

end SymbolCache

theorem genuine_loadCache {ws : Workspace} (injective : Function.Injective ws.contentHash)
    {codec : CacheCodec} {key : CacheKey} {dir : CacheDirectory} {name : Text}
    (serves : CacheServes codec key ws (dir.lookup name)) (fault : Option IoError) :
    SymbolCache.Genuine ws ((loadCache codec (dir.read fault name) key).getD ∅) := by
  cases fault with
  | some error => exact SymbolCache.genuine_empty
  | none =>
    cases there : dir.lookup name with
    | none =>
      simp only [CacheDirectory.read, there, loadCache]
      exact SymbolCache.genuine_empty
    | some bytes =>
      simp only [CacheDirectory.read, there, loadCache]
      cases parsed : codec.parse bytes with
      | none => exact SymbolCache.genuine_empty
      | some document =>
        simp only
        split
        · next used =>
          exact SymbolCache.genuine_symbolCache injective (serves bytes document there parsed used)
        · exact SymbolCache.genuine_empty

namespace Workspace

variable {ws : Workspace} {cache : SymbolCache}

theorem readEntry_genuine (genuine : cache.Genuine ws) (disk : Disk) (faults : ReadFaults)
    (path : PathBuf) : ws.readEntry disk faults path cache = ws.readEntry disk faults path ∅ := by
  have extracted : ∀ path content,
      (cache.symbolsFor path (ws.contentHash content)).getD (ws.extractSymbols path content) =
        ws.extractSymbols path content := by
    intro path content
    cases found : cache.symbolsFor path (ws.contentHash content) with
    | none => rfl
    | some symbols => exact genuine path content symbols found
  have none_cached : ∀ path content,
      (SymbolCache.symbolsFor ∅ path (ws.contentHash content)).getD
        (ws.extractSymbols path content) = ws.extractSymbols path content := fun _ _ => rfl
  simp only [readEntry, extracted, none_cached]

theorem scanDirectory_genuine (genuine : cache.Genuine ws) (disk : Disk) (faults : ReadFaults)
    (scanRoot : List Text) (respectIgnores : Bool) (index : CodeIndex) :
    ws.scanDirectory disk faults scanRoot respectIgnores cache index =
      ws.scanDirectory disk faults scanRoot respectIgnores ∅ index := by
  simp only [scanDirectory, readEntry_genuine genuine]

theorem scanArtifacts_genuine (genuine : cache.Genuine ws) (disk : Disk) (io : ScanIo)
    (texts : List Text) (index : CodeIndex) :
    ws.scanArtifacts disk io cache texts index = ws.scanArtifacts disk io ∅ texts index := by
  induction texts generalizing index with
  | nil => rfl
  | cons text rest ih => simp only [scanArtifacts, scanDirectory_genuine genuine, ih]

theorem scanWorkspace_genuine (genuine : cache.Genuine ws) (disk : Disk) (io : ScanIo) :
    ws.scanWorkspace disk io cache = ws.scan disk io := by
  simp only [scan, scanWorkspace, scanDirectory_genuine genuine, scanArtifacts_genuine genuine]

theorem readEntry_symbols {disk : Disk} {faults : ReadFaults} {path : PathBuf}
    {entry : FileEntry} (read : ws.readEntry disk faults path ∅ = .ok (some entry)) :
    entry.symbols = ws.extractSymbols entry.path entry.content := by
  rw [readEntry] at read
  split at read
  · cases read
  · split at read
    · cases read
    · cases read
    · split at read
      · cases read
      · split at read
        · cases read
        · cases read
          rfl

theorem parsed_ofIndex {disk : Disk} {io : ScanIo} {index : CodeIndex}
    (scanned : ws.scan disk io = .ok index) (key : CacheKey) :
    ∀ cached ∈ (CacheDocument.ofIndex key index).files, cached.Parsed ws := by
  intro cached mem
  obtain ⟨file, indexed, rfl⟩ := List.mem_map.mp mem
  obtain ⟨root, respectIgnores, path, -, -, read⟩ :=
    walks_of_scanWorkspace scanned (CodeIndex.mem_entries.mp indexed)
  exact ⟨file.content, readEntry_hash read, readEntry_symbols read⟩

end Workspace

theorem tempPath_ne (name : Text) (processId : Nat) : name ≠ tempPath name processId := by
  intro same
  have lengths := congrArg List.length same
  rw [tempPath, List.length_append, List.length_append, List.length_cons] at lengths
  omega

section

variable {name temp : Text}

theorem lookup_runAll_writes (apart : name ≠ temp) {steps : List StoreStep}
    (writes : ∀ step ∈ steps, step ≠ .rename) (dir : CacheDirectory) :
    (StoreStep.runAll name temp dir steps).lookup name = dir.lookup name := by
  induction steps generalizing dir with
  | nil => rfl
  | cons step rest ih =>
    have later := ih (fun other mem => writes other (List.mem_cons_of_mem _ mem))
      (step.run name temp dir)
    refine later.trans ?_
    cases step with
    | createDirs | sync => rfl
    | create | write bytes => exact AList.lookup_insert_ne apart
    | rename => exact absurd rfl (writes .rename List.mem_cons_self)

theorem lookup_runAll_pieces (name : Text) (pieces : List ByteArray) {dir : CacheDirectory}
    {bytes : ByteArray} (there : dir.lookup temp = some bytes) :
    (StoreStep.runAll name temp dir (pieces.map .write)).lookup temp =
      some (pieces.foldl (· ++ ·) bytes) := by
  induction pieces generalizing dir bytes with
  | nil => exact there
  | cons piece rest ih =>
    refine ih ?_
    rw [StoreStep.run, there, Option.getD_some, AList.lookup_insert]

theorem lookup_runAll_renamed (name temp : Text) (pieces : List ByteArray) (dir : CacheDirectory) :
    (StoreStep.runAll name temp dir (writeSteps pieces ++ [.rename])).lookup name =
      some (pieces.foldl (· ++ ·) .empty) := by
  have created : (StoreStep.run name temp dir .create).lookup temp = some .empty :=
    AList.lookup_insert dir
  have steps : StoreStep.runAll name temp dir (writeSteps pieces ++ [.rename]) =
      StoreStep.run name temp (StoreStep.runAll name temp (StoreStep.run name temp dir .create)
        (pieces.map .write)) .rename := by
    simp only [StoreStep.runAll, writeSteps, List.cons_append, List.append_assoc,
      List.foldl_cons, List.foldl_append, List.foldl_nil, List.nil_append]
    rfl
  have written := lookup_runAll_pieces name pieces created
  rw [steps]
  generalize StoreStep.runAll name temp _ (pieces.map .write) = dir at written
  rw [StoreStep.run, written]
  exact AList.lookup_insert _

end

theorem writeSteps_writes (pieces : List ByteArray) :
    ∀ step ∈ writeSteps pieces, step ≠ .rename := by
  rintro step mem rfl
  simp [writeSteps] at mem

theorem lookup_storeCache (codec : CacheCodec) (name : Text) (io : CacheIo) (key : CacheKey)
    (index : CodeIndex) (dir : CacheDirectory) :
    (storeCache codec name io key index dir).2.lookup name = dir.lookup name ∨
      (storeCache codec name io key index dir).2.lookup name =
        some (codec.write (.ofIndex key index)) := by
  have apart := tempPath_ne name io.processId
  have writes := writeSteps_writes (io.buffering.pieces (codec.write (.ofIndex key index)))
  have renamed := lookup_runAll_renamed name (tempPath name io.processId)
    (io.buffering.pieces (codec.write (.ofIndex key index))) dir
  rw [io.buffering.joined] at renamed
  have kept : ∀ calls, (StoreStep.runAll name (tempPath name io.processId) dir
      ((writeSteps (io.buffering.pieces (codec.write (.ofIndex key index)))).take calls)).lookup
        name = dir.lookup name := fun calls =>
    lookup_runAll_writes apart (fun step mem => writes step (List.mem_of_mem_take mem)) dir
  rw [storeCache]
  cases io.fate with
  | finished => exact .inr renamed
  | failed calls removed error =>
    refine .inl ?_
    simp only
    split
    · rw [AList.lookup_erase_ne apart, kept]
    · exact kept calls
  | interrupted calls =>
    simp only
    by_cases early : calls ≤
        (writeSteps (io.buffering.pieces (codec.write (.ofIndex key index)))).length
    · rw [List.take_append_of_le_length early]
      exact .inl (kept calls)
    · rw [List.take_of_length_le (by simp; omega)]
      exact .inr renamed

/-- Content is hashed, and symbols are extracted, alike. -/
structure Workspace.ParsesAs (ws other : Workspace) : Prop where
  hash : ws.contentHash = other.contentHash
  symbols : ws.extractSymbols = other.extractSymbols

theorem CachedFile.Parsed.congr {ws other : Workspace} (same : ws.ParsesAs other)
    {file : CachedFile} (parsed : file.Parsed ws) : file.Parsed other := by
  obtain ⟨content, hash, symbols⟩ := parsed
  exact ⟨content, by rw [hash, same.hash], by rw [symbols, same.symbols]⟩

theorem Workspace.ParsesAs.symm {ws other : Workspace} (same : ws.ParsesAs other) :
    other.ParsesAs ws :=
  ⟨same.hash.symm, same.symbols.symm⟩

namespace CachedScan

variable {codec : CacheCodec} {ws : Workspace}

theorem scanWorkspace_served (injective : Function.Injective ws.contentHash) {scan : CachedScan}
    (same : scan.ws.ParsesAs ws) {dir : CacheDirectory} {name : Text}
    (serves : CacheServes codec scan.key ws (dir.lookup name)) :
    scan.ws.scanWorkspace scan.disk scan.io
        ((loadCache codec (dir.read scan.cacheIo.readFault name) scan.key).getD ∅) =
      scan.ws.scan scan.disk scan.io := by
  have served : CacheServes codec scan.key scan.ws (dir.lookup name) :=
    fun bytes document there parsed used cached mem =>
      (serves bytes document there parsed used cached mem).congr same.symm
  rw [← same.hash] at injective
  exact Workspace.scanWorkspace_genuine (genuine_loadCache injective served _) _ _

theorem serves_run (injective : Function.Injective ws.contentHash) {key : CacheKey}
    {scan : CachedScan} (same : scan.key = key → scan.ws.ParsesAs ws) {dir : CacheDirectory}
    {name : Text} (serves : CacheServes codec key ws (dir.lookup name)) :
    CacheServes codec key ws ((scan.run codec name dir).2.lookup name) := by
  rw [run]
  cases scanned : scan.ws.scanWorkspace scan.disk scan.io
      ((loadCache codec (dir.read scan.cacheIo.readFault name) scan.key).getD ∅) with
  | error error => exact serves
  | ok index =>
    simp only
    rcases lookup_storeCache codec name scan.cacheIo scan.key index dir with kept | stored
    · rw [kept]
      exact serves
    · rw [stored]
      rintro bytes document ⟨⟩ parsed used cached mem
      rw [codec.parse_write, Option.some.injEq] at parsed
      subst parsed
      have own : scan.key = key := ((CacheDocument.isFor_iff _ key).mp used).2
      subst own
      rw [scanWorkspace_served injective (same rfl) serves] at scanned
      exact (Workspace.parsed_ofIndex scanned scan.key cached mem).congr (same rfl)

theorem serves_afterScans (injective : Function.Injective ws.contentHash) {key : CacheKey}
    {scans : List CachedScan} (same : ∀ scan ∈ scans, scan.key = key → scan.ws.ParsesAs ws)
    {start : CacheDirectory} {name : Text} (serves : CacheServes codec key ws (start.lookup name)) :
    CacheServes codec key ws ((afterScans codec name scans start).lookup name) := by
  induction scans generalizing start with
  | nil => exact serves
  | cons scan rest ih =>
    exact ih (fun other mem => same other (List.mem_cons_of_mem _ mem))
      (serves_run injective (same scan List.mem_cons_self) serves)

end CachedScan

/-- A scan that uses the cache file, whatever scans with whatever settings and trees have left
of it, gives the index of a scan that uses none. -/
theorem scanCached_eq_scan {codec : CacheCodec} {name : Text} {start : CacheDirectory}
    {history : List CachedScan} {scan : CachedScan} {index : CodeIndex} {hit : Bool}
    (injective : Function.Injective scan.ws.contentHash)
    (missed : CacheMisses codec scan.key (start.lookup name))
    (same : ∀ earlier ∈ history, earlier.key = scan.key → earlier.ws.ParsesAs scan.ws)
    (ok : (scan.run codec name (afterScans codec name history start)).1 =
      some (.ok (index, hit))) :
    scan.ws.scan scan.disk scan.io = .ok index := by
  have serves := CachedScan.serves_afterScans injective same (missed.serves scan.ws)
  have plain := CachedScan.scanWorkspace_served injective ⟨rfl, rfl⟩ serves
  rw [CachedScan.run, plain] at ok
  cases scanned : scan.ws.scan scan.disk scan.io with
  | error error =>
    rw [scanned] at ok
    cases ok
  | ok found =>
    rw [scanned] at ok
    obtain ⟨stored, -, ended⟩ := Option.map_eq_some_iff.mp ok
    cases stored with
    | error error => cases ended
    | ok _ =>
      cases ended
      rfl

namespace Sample

def symbolCode : Code Symbol :=
  .ofParts (.pair (.list .char) (.pair (.list .char) (.pair .nat (.pair .nat (.list .char)))))
    (fun symbol => (symbol.name, symbol.kind, symbol.startLine, symbol.endLine, symbol.signature))
    (fun (name, kind, startLine, endLine, signature) => ⟨name, kind, startLine, endLine, signature⟩)
    fun _ => rfl

def cachedFileCode : Code CachedFile :=
  .ofParts (.pair (.list .char) (.pair (.list .char) (.list symbolCode)))
    (fun file => (file.path, file.hash, file.symbols))
    (fun (path, hash, symbols) => ⟨path, hash, symbols⟩)
    fun _ => rfl

def documentCode : Code CacheDocument :=
  .ofParts (.pair (.list .char) (.pair (.list .char) (.pair .nat (.pair (.list (.list .char))
      (.pair (.list (.list .char)) (.list cachedFileCode))))))
    (fun document => (document.schema, document.root, document.maxFileBytes,
      document.artifactPaths, document.excludePaths, document.files))
    (fun (schema, root, maxFileBytes, artifactPaths, excludePaths, files) =>
      ⟨schema, root, maxFileBytes, artifactPaths, excludePaths, files⟩)
    fun _ => rfl

def documents : CacheCodec where
  write document := Text.bytes (documentCode.put document)
  parse bytes := (fromUtf8 bytes).bind fun text => (documentCode.take text).map Prod.fst
  parse_write document := by
    have taken := documentCode.take_put document []
    rw [List.append_nil] at taken
    simp [taken]

def writing (fate : StoreFate) : CacheIo where
  readFault := none
  processId := 7
  buffering := ⟨fun bytes => [bytes], fun bytes => by simp⟩
  fate := fate

def cachedScan (excludePaths : List Text) (fate : StoreFate) (content : String) : CachedScan where
  ws := { declaring with maxFileBytes := 3 }
  excludePaths := excludePaths
  disk := .holding [(["a".toList], content.toList)]
  io := .calm
  cacheIo := writing fate

def earlierScans : List CachedScan :=
  [cachedScan [] .finished "f\n", cachedScan ["b".toList] (.interrupted 4) "g\n"]

def lastScan : CachedScan := cachedScan [] .finished "f\n"

def lastIndex : CodeIndex :=
  ((lastScan.ws.scan lastScan.disk lastScan.io).toOption).getD .empty

end Sample

open Sample in
theorem scanCached_eq_scan_reusing :
    (lastScan.run documents "c".toList (afterScans documents "c".toList earlierScans ∅)).1 =
      some (.ok (lastIndex, true)) ∧
    lastScan.ws.scan lastScan.disk lastScan.io = .ok lastIndex := by
  have ran : (lastScan.run documents "c".toList
      (afterScans documents "c".toList earlierScans ∅)).1 = some (.ok (lastIndex, true)) := rfl
  refine ⟨ran, scanCached_eq_scan (fun _ _ same => same) ?_ ?_ ran⟩
  · exact fun _ _ there => by cases there
  · intro earlier mem _
    rcases List.mem_cons.mp mem with rfl | mem
    · exact ⟨rfl, rfl⟩
    · rw [List.mem_singleton.mp mem]
      exact ⟨rfl, rfl⟩

end CodeWeave
