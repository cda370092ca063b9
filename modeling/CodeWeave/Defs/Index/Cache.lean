import CodeWeave.Defs.Index.Query
import CodeWeave.Defs.Index.Scan

namespace CodeWeave

def cacheSchema : Text := "codeweave-index-cache-v2".toList

structure CacheKey where
  root : Text
  maxFileBytes : Nat
  artifactPaths : List Text
  excludePaths : List Text
  deriving DecidableEq

structure CachedFile where
  path : Text
  hash : ContentHash
  symbols : List Symbol
  deriving DecidableEq

structure CacheDocument where
  schema : Text
  root : Text
  maxFileBytes : Nat
  artifactPaths : List Text
  excludePaths : List Text
  files : List CachedFile
  deriving DecidableEq

/-- JSON of a cache document, which is read back as it was written. -/
structure CacheCodec where
  write : CacheDocument → ByteArray
  parse : ByteArray → Option CacheDocument
  parse_write : ∀ document, parse (write document) = some document

abbrev CacheDirectory := Table Text ByteArray

structure Buffering where
  pieces : ByteArray → List ByteArray
  joined : ∀ bytes, (pieces bytes).foldl (· ++ ·) .empty = bytes

namespace CacheDocument

variable (document : CacheDocument)

def key : CacheKey :=
  ⟨document.root, document.maxFileBytes, document.artifactPaths, document.excludePaths⟩

def isFor (key : CacheKey) : Bool :=
  document.schema = cacheSchema && document.root = key.root &&
    document.maxFileBytes = key.maxFileBytes && document.artifactPaths = key.artifactPaths &&
    document.excludePaths = key.excludePaths

def symbolCache : SymbolCache :=
  document.files.foldl (fun cache file => cache.insert file.path (file.hash, file.symbols)) ∅

def ofIndex (key : CacheKey) (index : CodeIndex) : CacheDocument where
  schema := cacheSchema
  root := key.root
  maxFileBytes := key.maxFileBytes
  artifactPaths := key.artifactPaths
  excludePaths := key.excludePaths
  files := index.entries.map fun file => ⟨file.path, file.hash, file.symbols⟩

theorem isFor_iff (key : CacheKey) :
    document.isFor key = true ↔ document.schema = cacheSchema ∧ document.key = key := by
  cases key
  simp [isFor, CacheDocument.key, and_assoc]

end CacheDocument

namespace CacheDirectory

def read (dir : CacheDirectory) (fault : Option IoError) (name : Text) :
    Except IoError ByteArray :=
  match fault, dir.lookup name with
  | some error, _ => .error error
  | none, some bytes => .ok bytes
  | none, none => .error ⟨.notFound, "No such file or directory"⟩

end CacheDirectory

def loadCache (codec : CacheCodec) (contents : Except IoError ByteArray) (key : CacheKey) :
    Option SymbolCache :=
  match contents with
  | .error _ => none
  | .ok bytes =>
    match codec.parse bytes with
    | none => none
    | some document => if document.isFor key then some document.symbolCache else none

/-- What `cache::store` asks of the file system, one call after another. -/
inductive StoreStep
  | createDirs
  | create
  | write (bytes : ByteArray)
  | sync
  | rename

/-- How a store ends: as it should, in an error of the call after so many and with its
temporary file removed or not, or with the process after so many calls. -/
inductive StoreFate
  | finished
  | failed (calls : Nat) (removed : Bool) (error : AppError)
  | interrupted (calls : Nat)

/-- What the operating system does with the cache file. -/
structure CacheIo where
  readFault : Option IoError
  processId : Nat
  buffering : Buffering
  fate : StoreFate

def tempPath (name : Text) (processId : Nat) : Text :=
  name ++ '.' :: decimal processId ++ ".tmp".toList

namespace StoreStep

variable (name temp : Text)

def run (dir : CacheDirectory) : StoreStep → CacheDirectory
  | .createDirs => dir
  | .create => dir.insert temp .empty
  | .write bytes => dir.insert temp ((dir.lookup temp).getD .empty ++ bytes)
  | .sync => dir
  | .rename =>
    match dir.lookup temp with
    | some bytes => (dir.erase temp).insert name bytes
    | none => dir

def runAll (dir : CacheDirectory) (steps : List StoreStep) : CacheDirectory :=
  steps.foldl (run name temp) dir

end StoreStep

def writeSteps (pieces : List ByteArray) : List StoreStep :=
  .createDirs :: .create :: (pieces.map .write ++ [.sync])

def storeCache (codec : CacheCodec) (name : Text) (io : CacheIo) (key : CacheKey)
    (index : CodeIndex) (dir : CacheDirectory) : Option (AppResult Unit) × CacheDirectory :=
  let temp := tempPath name io.processId
  let writes := writeSteps (io.buffering.pieces (codec.write (.ofIndex key index)))
  match io.fate with
  | .finished => (some (.ok ()), StoreStep.runAll name temp dir (writes ++ [.rename]))
  | .interrupted calls =>
    (none, StoreStep.runAll name temp dir ((writes ++ [StoreStep.rename]).take calls))
  | .failed calls removed error =>
    -- The last call that can fail is the renaming. A failed first one has left no file to remove.
    let written := StoreStep.runAll name temp dir (writes.take calls)
    (some (.error error), if removed && calls ≠ 0 then written.erase temp else written)

def Workspace.rootText (ws : Workspace) : Text := '/' :: joinSegments ws.root

structure CachedScan where
  ws : Workspace
  excludePaths : List Text
  disk : Disk
  io : ScanIo
  cacheIo : CacheIo

namespace CachedScan

variable (scan : CachedScan)

def key : CacheKey :=
  ⟨scan.ws.rootText, scan.ws.maxFileBytes, scan.ws.artifactPaths, scan.excludePaths⟩

def run (codec : CacheCodec) (name : Text) (dir : CacheDirectory) :
    Option (AppResult (CodeIndex × Bool)) × CacheDirectory :=
  let cached := loadCache codec (dir.read scan.cacheIo.readFault name) scan.key
  match scan.ws.scanWorkspace scan.disk scan.io (cached.getD ∅) with
  | .error error => (some (.error error), dir)
  | .ok index =>
    let (stored, dir) := storeCache codec name scan.cacheIo scan.key index dir
    (stored.map fun stored => stored.map fun _ => (index, cached.isSome), dir)

end CachedScan

def afterScans (codec : CacheCodec) (name : Text) (scans : List CachedScan)
    (dir : CacheDirectory) : CacheDirectory :=
  scans.foldl (fun dir scan => (scan.run codec name dir).2) dir

end CodeWeave
