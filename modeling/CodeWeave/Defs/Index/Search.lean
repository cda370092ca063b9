import CodeWeave.Defs.Index.Query
import CodeWeave.Defs.Index.Windows

namespace CodeWeave

/-- `RegexBuilder`: a pattern, and whether case is ignored, to what matches. -/
structure RegexEngine where
  compile : Text → Bool → Except String (Text → Bool)

inductive LineMatcher
  | exact (needle : Text)
  | folded (needle : Text)
  | regex (isMatch : Text → Bool)

namespace LineMatcher

def new (engine : RegexEngine) (query : TextQuery) : AppResult LineMatcher :=
  match query.style with
  | .literal =>
    .ok (if query.caseSensitive then .exact query.pattern else .folded (asciiLower query.pattern))
  | .regex =>
    match engine.compile query.pattern (!query.caseSensitive) with
    | .ok isMatch => .ok (.regex isMatch)
    | .error message => .error (.withDetails .invalidRegex message
        (.json (json [("query_length", .number (utf8Count query.pattern))])))

variable (matcher : LineMatcher) (file : FileEntry)

def haystack : Text :=
  match matcher with
  | .folded _ => file.searchContent
  | .exact _ | .regex _ => file.content

def mayMatch : Bool :=
  match matcher with
  | .exact needle | .folded needle => needle <:+: matcher.haystack file
  | .regex _ => true

def isMatch (line : Text) : Bool :=
  match matcher with
  | .exact needle | .folded needle => needle <:+: line
  | .regex isMatch => isMatch line

def windows (contextLines : Nat) : List (Window Unit) :=
  ((lines (matcher.haystack file)).zipIdx.foldl
    (fun (builder : WindowBuilder Unit) numbered =>
      if matcher.isMatch numbered.1 then builder.push (numbered.2 + 1) (numbered.2 + 1) ()
      else builder)
    (.new contextLines file.lineCount none)).windows

end LineMatcher

structure TextMatch where
  path : Text
  line : Nat
  startLine : Nat
  endLine : Nat
  preview : Text
  handle : Text
  matchType : String
  reasonCode : String

def TextMatch.json (found : TextMatch) : Value :=
  CodeWeave.json [("path", .string found.path), ("line", .number found.line),
    ("start_line", .number found.startLine), ("end_line", .number found.endLine),
    ("preview", .string found.preview), ("handle", .string found.handle),
    ("match_type", .str found.matchType), ("score", .decimal "1.0".toList),
    ("reason_codes", .list [.str found.reasonCode])]

structure TextResponse where
  mode : String
  snapshotId : SnapshotId
  resultCount : Nat
  truncated : Bool
  results : List TextMatch

def TextResponse.json (response : TextResponse) : Value :=
  CodeWeave.json [("mode", .str response.mode), ("snapshot_id", .string response.snapshotId),
    ("result_count", .number response.resultCount), ("truncated", .bool response.truncated),
    ("results", .list (response.results.map TextMatch.json))]

def textWindowsPerFile : Nat := 8

def TextSyntax.reasonCode : TextSyntax → String
  | .literal => "literal_match"
  | .regex => "regex_match"

def textMatch {ws : Workspace} (encoder : HandleEncoder ws) (workspaceId : Text)
    (style : TextSyntax) (file : FileEntry) (window : Window Unit) : TextMatch where
  path := file.path
  line := window.line
  startLine := window.startLine
  endLine := window.endLine
  preview := sliceLines file.content window.startLine window.endLine
  handle := encodeHandle encoder ⟨workspaceId, file.path, window.startLine, window.endLine,
    file.hash⟩
  matchType := style.asStr
  reasonCode := style.reasonCode

namespace CodeIndex

variable (index : CodeIndex) {ws : Workspace} (encoder : HandleEncoder ws) (engine : RegexEngine)
  (scope : SearchScope)

def searchText (query : TextQuery) : AppResult TextResponse :=
  if query.pattern = [] then .error (.invalid "query is required for text search")
  else
    match LineMatcher.new engine query with
    | .error error => .error error
    | .ok matcher =>
      let pathFilters := PathFilterSet.new scope.paths
      let files := sortByPath ((index.entries.filter fun file => pathFilters.allows file.path).filter
        matcher.mayMatch)
      let perFileLimit :=
        if pathFilters.normalized.length = 1 then scope.limit
        else min scope.limit textWindowsPerFile
      let groups := files.foldl (fun (groups : FileGroups TextMatch) file =>
        groups.pushFile (matcher.windows file query.contextLines) perFileLimit
          (textMatch encoder scope.workspaceId query.style file)) .new
      let interleaved := groups.interleave scope.limit
      .ok ⟨query.style.asStr, scope.snapshotId, interleaved.results.length, interleaved.truncated,
        interleaved.results⟩

end CodeIndex

end CodeWeave
