import CodeWeave.Defs.Index.Store

namespace CodeWeave

abbrev SymbolCache := Table Text (ContentHash × List Symbol)

def SymbolCache.symbolsFor (cache : SymbolCache) (path : Text) (hash : ContentHash) :
    Option (List Symbol) :=
  match cache.lookup path with
  | some (cached, symbols) => if cached = hash then some symbols else none
  | none => none

/-- What the operating system answers during a scan besides the tree itself: the
reads that fail, and where the existing artifact paths lead (`none` inside the
result for a path outside the root). -/
structure ScanIo where
  faults : ReadFaults
  resolve : List Text → Option (Except IoError (Option (List Text)))

def ScanIo.calm : ScanIo := ⟨fun _ => none, fun _ => none⟩

def pathOf (components : List Text) : PathBuf := .below (joinSegments components)

namespace Workspace

variable (ws : Workspace)

def readEntry (disk : Disk) (faults : ReadFaults) (path : PathBuf) (cache : SymbolCache) :
    AppResult (Option FileEntry) :=
  match RelPath.new path.relative with
  | .error _ => .ok none
  | .ok relative =>
    match disk.readFile faults relative ws.maxFileBytes with
    | .error error => .error error
    | .ok none => .ok none
    | .ok (some file) =>
      if (file.bytes.data.toList.take 8192).any (· = 0) then .ok none
      else
        match fromUtf8 file.bytes with
        | none => .ok none
        | some content =>
          let hash := ws.contentHash content
          let symbols := (cache.symbolsFor relative.text hash).getD
            (ws.extractSymbols relative.text content)
          .ok (some ⟨relative.text, content, hash, symbols, file.size, file.modifiedNs⟩)

def refreshPath (disk : Disk) (faults : ReadFaults) (absolute : PathBuf) (index : CodeIndex) :
    AppResult (List Text × CodeIndex) :=
  let relative := absolute.relative
  if relative = [] ∨ relative = ['.'] then .ok ([], index)
  else
    match RelPath.new relative with
    | .error _ => .ok ([], index)
    | .ok file =>
      if !disk.isRegularFile file then .ok (index.removeTree ws relative)
      else if ws.isIgnored absolute false || ws.excludedPath absolute then .ok ([], index)
      else
        match ws.readEntry disk faults absolute ∅ with
        | .error error => .error error
        | .ok none => .ok ([], index)
        | .ok (some entry) =>
          let isChanged := (index.get entry.path).all fun old => old.hash ≠ entry.hash
          .ok (if isChanged then [entry.path] else [], index.insert ws entry)

-- The index is changed in place: a read that fails leaves what the paths before
-- it did.
def refreshFrom (disk : Disk) (faults : ReadFaults) :
    List PathBuf → List Text → CodeIndex → AppResult (List Text) × CodeIndex
  | [], changed, index => (.ok changed, index)
  | absolute :: rest, changed, index =>
    match ws.refreshPath disk faults absolute index with
    | .error error => (.error error, index)
    | .ok (more, index) => refreshFrom disk faults rest (changed ++ more) index

def refreshPaths (disk : Disk) (faults : ReadFaults) (paths : List PathBuf) (index : CodeIndex) :
    AppResult (List Text) × CodeIndex :=
  ws.refreshFrom disk faults paths [] index

def walkEntry (respectIgnores : Bool) (components : List Text) (isDir : Bool) : Bool :=
  !ws.excludedDir (pathOf components) && !ws.isIgnored (pathOf components) isDir &&
    !(respectIgnores && ws.walkIgnored components isDir)

-- A file the walk from `scanRoot` yields: it passes through real directories, no
-- entry on the way is filtered, and the file itself is not excluded.
def walked (disk : Disk) (scanRoot : List Text) (respectIgnores : Bool) (file : List Text) : Bool :=
  scanRoot.isPrefixOf file && (disk.fileAt file).isSome &&
    file.inits.all (fun entry =>
      entry.length ≤ scanRoot.length ||
        (if entry = file then ws.walkEntry respectIgnores entry false
          else (match disk.node entry with | some .dir => true | _ => false) &&
            ws.walkEntry respectIgnores entry true)) &&
    !ws.excludedPath (pathOf file) && !ws.isIgnored (pathOf file) false

def scanDirectory (disk : Disk) (faults : ReadFaults) (scanRoot : List Text)
    (respectIgnores : Bool) (cache : SymbolCache) (index : CodeIndex) : AppResult CodeIndex :=
  let paths := disk.nodes.keys.filter (ws.walked disk scanRoot respectIgnores)
  match paths.mapM fun path => ws.readEntry disk faults (pathOf path) cache with
  | .error error => .error error
  | .ok entries => .ok (entries.reduceOption.foldl (fun index entry => index.insert ws entry) index)

def scanArtifacts (disk : Disk) (io : ScanIo) (cache : SymbolCache) :
    List Text → CodeIndex → AppResult CodeIndex
  | [], index => .ok index
  | text :: rest, index =>
    match RelPath.new text with
    | .error error => .error error
    | .ok relative =>
      match io.resolve relative.components with
      | none => scanArtifacts disk io cache rest index
      | some (.error error) => .error (.ofIo error)
      | some (.ok none) =>
        .error (.new .outsideRoot "Artifact path resolves outside workspace")
      | some (.ok (some resolved)) =>
        match ws.scanDirectory disk io.faults resolved false cache index with
        | .error error => .error error
        | .ok index => scanArtifacts disk io cache rest index

def scanWorkspace (disk : Disk) (io : ScanIo) (cache : SymbolCache) : AppResult CodeIndex :=
  match ws.scanDirectory disk io.faults [] true cache .empty with
  | .error error => .error error
  | .ok index => ws.scanArtifacts disk io cache ws.artifactPaths index

def scan (disk : Disk) (io : ScanIo) : AppResult CodeIndex := ws.scanWorkspace disk io ∅

end Workspace

end CodeWeave
