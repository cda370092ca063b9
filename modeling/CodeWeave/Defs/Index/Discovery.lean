import CodeWeave.Defs.Index.Search
import CodeWeave.Defs.Index.Symbols
import Mathlib.Data.Finset.Sort
import Mathlib.Data.Prod.Lex

namespace CodeWeave

/-- The regex crate, with what it makes of a text that is to match itself. -/
structure GlobEngine extends RegexEngine where
  escape : Text → Text

structure FilenameQuery where
  name : Text
  caseSensitive : Bool

structure SymbolQuery where
  name : Text

inductive FilenameMatcher
  | substring (needle : Text) (caseSensitive : Bool)
  | glob (regex : Text → Bool)

def hasGlobWildcards (query : Text) : Bool := '*' ∈ query || '?' ∈ query

def globPatternToRegex (engine : GlobEngine) (pattern : Text) : Text :=
  '^' :: (pattern.flatMap fun ch =>
    if ch = '*' then ['.', '*'] else if ch = '?' then ['.'] else engine.escape [ch]) ++ ['$']

namespace FilenameMatcher

def new (engine : GlobEngine) (query : Text) (caseSensitive : Bool) : AppResult FilenameMatcher :=
  if hasGlobWildcards query then
    match engine.compile (globPatternToRegex engine query) (!caseSensitive) with
    | .ok regex => .ok (.glob regex)
    | .error message => .error (.new .internalError message)
  else .ok (.substring (if caseSensitive then query else asciiLower query) caseSensitive)

def isMatch (file : FileEntry) : FilenameMatcher → Bool
  | .substring needle caseSensitive =>
    needle <:+: if caseSensitive then file.path else file.pathLower
  | .glob regex => regex file.path

def semantics : FilenameMatcher → String
  | .substring _ _ => "substring"
  | .glob _ => "glob"

end FilenameMatcher

inductive SymbolRank
  | exact
  | prefixed
  | contains
  deriving DecidableEq

namespace SymbolRank

def order : SymbolRank → Nat
  | .exact => 0
  | .prefixed => 1
  | .contains => 2

def matchType : SymbolRank → String
  | .exact => "exact_symbol"
  | .prefixed => "prefix_symbol"
  | .contains => "contains_symbol"

def score : SymbolRank → Text
  | .exact => "1.0".toList
  | .prefixed => "0.8".toList
  | .contains => "0.6".toList

def reasonCode : SymbolRank → String
  | .exact => "exact_symbol"
  | .prefixed | .contains => "symbol_match"

end SymbolRank

def extension (path : Text) : Option Text :=
  let name := ((segments path).getLast?).getD []
  match rfind name ['.'] with
  | none => none
  | some 0 => none
  | some dot => if name = ['.', '.'] then none else some (name.drop (dot + 1))

def languageName (path : Text) : String :=
  let extension := String.ofList (asciiLower ((extension path).getD []))
  if extension ∈ ["py", "pyi"] then "python"
  else if extension = "ts" then "typescript"
  else if extension = "tsx" then "tsx"
  else if extension ∈ ["js", "mjs", "cjs", "jsx"] then "javascript"
  else if extension = "rs" then "rust"
  else if extension = "go" then "go"
  else if extension = "java" then "java"
  else if extension = "cs" then "csharp"
  else if extension ∈ ["c", "h"] then "c"
  else if extension ∈ ["cc", "cpp", "cxx", "hpp", "hh"] then "cpp"
  else if extension = "json" then "json"
  else if extension ∈ ["md", "markdown"] then "markdown"
  else if extension ∈ ["html", "htm"] then "html"
  else if extension ∈ ["yaml", "yml"] then "yaml"
  else if extension = "toml" then "toml"
  else if extension = "log" then "log"
  else "text"

def FileEntry.language (file : FileEntry) : String := languageName file.path

def directoryOf (path : Text) : Text :=
  match rfind path ['/'] with
  | none => ['.']
  | some slash => path.take slash

def sortPlaces (places : Finset (Text × Nat)) : List (Text × Nat) :=
  (places.map toLex.toEmbedding).sort.map ofLex

structure SymbolMatch where
  rank : SymbolRank
  file : FileEntry
  symbol : Symbol
  deriving DecidableEq

def symbolMatchBefore (left right : SymbolMatch) : Bool :=
  left.rank.order < right.rank.order ||
    (left.rank.order = right.rank.order && (left.file.path < right.file.path ||
      (left.file.path = right.file.path && left.symbol.startLine ≤ right.symbol.startLine)))

def symbolRank (normalizedName needle : Text) : Option SymbolRank :=
  if ¬needle <:+: normalizedName then none
  else if normalizedName = needle then some .exact
  else if needle <+: normalizedName then some .prefixed
  else some .contains

namespace CodeIndex

variable (index : CodeIndex) {ws : Workspace} (encoder : HandleEncoder ws) (engine : GlobEngine)
  (scope : SearchScope)

def searchFilenames (query : FilenameQuery) : AppResult Value := do
  let pathFilters := PathFilterSet.new scope.paths
  let found ← FilenameMatcher.new engine query.name query.caseSensitive
  let matched := (sortByPath ((index.entries.filter fun file => pathFilters.allows file.path).filter
    found.isMatch)).map FileEntry.path
  let paths := (matched.take scope.limit).map fun path =>
    json [("path", .string path), ("match_type", .str found.semantics),
      ("score", .decimal "1.0".toList), ("reason_codes", .list [.str "filename_match"])]
  .ok (json [("mode", .str "filename"), ("match_semantics", .str found.semantics),
    ("snapshot_id", .string scope.snapshotId), ("result_count", .number paths.length),
    ("truncated", .bool (matched.length > paths.length)), ("results", .list paths)])

def indexedSymbols (name : Text) : List (FileEntry × Symbol) :=
  (sortPlaces ((index.symbolIndex.lookup name).getD ∅)).filterMap fun place =>
    (index.lookup place.1).bind fun file =>
      file.symbols[place.2]?.map fun symbol => (file, symbol)

def symbolMatches (query : SymbolQuery) : List SymbolMatch :=
  index.symbolIndex.keys.flatMap fun name =>
    match symbolRank (asciiLower name) (asciiLower query.name) with
    | none => []
    | some rank =>
      ((index.indexedSymbols name).filter fun found =>
        (PathFilterSet.new scope.paths).allows found.1.path).map fun found =>
          ⟨rank, found.1, found.2⟩

def searchSymbols (query : SymbolQuery) : Value :=
  let results := (((index.symbolMatches scope query).mergeSort symbolMatchBefore).take
    scope.limit).map fun found =>
      json [("path", .string found.file.path), ("symbol", found.symbol.json),
        ("handle", .string (encodeHandle encoder ⟨scope.workspaceId, found.file.path,
          found.symbol.startLine, found.symbol.endLine, found.file.hash⟩)),
        ("match_type", .str found.rank.matchType), ("score", .decimal found.rank.score),
        ("reason_codes", .list [.str found.rank.reasonCode])]
  json [("mode", .str "symbol"), ("snapshot_id", .string scope.snapshotId),
    ("result_count", .number results.length), ("results", .list results)]

def findSymbols (name : Text) : List SymbolDefinition :=
  let leafName := ((qualifiedSymbolParts name).map Prod.snd).getD name
  ((index.indexedSymbols leafName).filter fun found =>
    symbolMatchesQualifiedName found.1 found.2 name).map
      fun found => ⟨found.1.path, found.2, found.1.hash⟩

def repoMap : Value :=
  let pathFilters := PathFilterSet.new scope.paths
  let files := index.entries.filter fun file => pathFilters.allows file.path
  let directories := (files.map fun file => directoryOf file.path).dedup.mergeSort
    fun left right => decide (left ≤ right)
  let entries := (directories.take scope.limit).map fun path =>
    let within := files.filter fun file => directoryOf file.path = path
    let languages := ((within.map fun file => file.language.toList).dedup).mergeSort
      fun left right => decide (left ≤ right)
    json [("path", .string path), ("files", .number within.length),
      ("languages", .list (languages.map .string))]
  json [("mode", .str "repo_map"), ("snapshot_id", .string scope.snapshotId),
    ("directories", .list entries), ("file_count", .number files.length),
    ("total_file_count", .number index.fileCount),
    ("scope_applied", .bool (0 < pathFilters.normalized.length))]

end CodeIndex

end CodeWeave
