import CodeWeave.Defs.Index.Windows
import CodeWeave.Defs.Occurrences

/-! `reference_service`: the lexical fallback. -/

namespace CodeWeave

def occurrencesPerWindow : Nat := 3

def windowsPerFile : Nat := 3

def fallbackCaveat : String := "Complete exact-identifier fallback scan; same-named unrelated identifiers may be included, while aliases and dynamic references may be missed."

inductive ReferenceScope
  | all
  | production
  | tests
  deriving DecidableEq

def ReferenceScope.allows (scope : ReferenceScope) (file : FileEntry) : Bool :=
  match scope with
  | .all => true
  | .tests => file.documentType = .test
  | .production => file.documentType = .source && !("docs/".toList.isPrefixOf file.path) &&
      !("examples/".toList.isPrefixOf file.path)

inductive ReferenceMatchType
  | reference
  | declaration
  deriving DecidableEq

structure ReferenceQuery where
  symbol : Text
  scope : ReferenceScope
  kinds : List ReferenceKind
  contextLines : Nat

structure ReferenceOccurrence where
  range : ReferenceRange
  role : ReferenceKind
  evidence : Evidence
  enclosingSymbol : Option Text
  deriving DecidableEq

structure FallbackLocation where
  path : Text
  line : Nat
  startLine : Nat
  endLine : Nat
  range : ReferenceRange
  preview : Option Text
  handle : Option Text
  matchType : ReferenceMatchType
  evidence : Evidence
  classificationEvidence : Evidence
  freshness : Freshness
  referenceKind : ReferenceKind
  enclosingSymbol : Option Text
  occurrences : List ReferenceOccurrence
  score : String
  reasonCodes : List String

structure ScannedScope where
  fileCount : Nat
  byteCount : Nat

structure FallbackResponse where
  symbol : Text
  snapshotId : SnapshotId
  target : ReferenceTarget
  targetEvidence : Evidence
  backend : ReferenceBackend
  freshness : Freshness
  evidence : Evidence
  evidenceCaveat : String
  semantic : Bool
  definitions : List (Text × Symbol)
  referenceScope : ReferenceScope
  referenceKinds : List ReferenceKind
  scannedScope : Option ScannedScope
  occurrenceCount : Nat
  resultCount : Nat
  truncated : Bool
  results : List FallbackLocation

structure FallbackTarget extends ReferenceTargetSelection where
  declarationOccurrence : Option EnclosedOccurrence

def FallbackTarget.selectedDeclaration (target : FallbackTarget) : Option (Nat × Nat) :=
  target.declarationOccurrence.map fun occurrence => (occurrence.startByte, occurrence.endByte)

def ReferenceKind.asStr : ReferenceKind → String
  | .declaration => "declaration"
  | .call => "call"
  | .imported => "import"
  | .typed => "type"
  | .read => "read"
  | .write => "write"
  | .other => "other"

def kindPriority : ReferenceKind → Nat
  | .declaration => 0
  | .call => 1
  | .write => 2
  | .typed => 3
  | .imported => 4
  | .read => 5
  | .other => 6

def kindScore : ReferenceKind → String
  | .declaration | .call => "1.0"
  | .write => "0.9"
  | .typed => "0.85"
  | .imported => "0.75"
  | .read => "0.65"
  | .other => "0.5"

def leadingOccurrence (window : Window EnclosedOccurrence) : Option EnclosedOccurrence :=
  minByKey (fun occurrence => kindPriority occurrence.role) window.hits

def referenceOccurrence (occurrence : EnclosedOccurrence) : ReferenceOccurrence where
  range := occurrenceRange occurrence.toIdentifierOccurrence
  role := occurrence.role
  evidence := occurrence.evidence
  enclosingSymbol := occurrence.enclosingSymbol

section

variable {ws : Workspace} (encoder : HandleEncoder ws) (workspaceId : Text) (file : FileEntry)

-- A window holds an occurrence, so that the defaults stand for nothing.
def referenceLocation (window : Window EnclosedOccurrence) : FallbackLocation :=
  let lead := leadingOccurrence window
  let kind := (lead.map fun occurrence => occurrence.role).getD .other
  let occurrences := window.hits.map referenceOccurrence
  { path := file.path
    line := window.line
    startLine := window.startLine
    endLine := window.endLine
    range := (occurrences.head?.map ReferenceOccurrence.range).getD ⟨⟨0, 0, none⟩, ⟨0, 0, none⟩⟩
    preview := some (sliceLines file.content window.startLine window.endLine)
    handle := some (encodeHandle encoder
      ⟨workspaceId, file.path, window.startLine, window.endLine, file.hash⟩)
    matchType := .reference
    evidence := .lexical
    classificationEvidence := (lead.map fun occurrence => occurrence.evidence).getD .lexical
    freshness := .current
    referenceKind := kind
    enclosingSymbol := lead.bind EnclosedOccurrence.enclosingSymbol
    occurrences
    score := kindScore kind
    reasonCodes := [kind.asStr ++ "_reference"] }

def declarationLocation (symbol : Symbol) (occurrence : Option EnclosedOccurrence) :
    FallbackLocation where
  path := file.path
  line := (occurrence.map fun item => item.startLine).getD symbol.startLine
  startLine := symbol.startLine
  endLine := symbol.endLine
  range := (occurrence.map fun item => occurrenceRange item.toIdentifierOccurrence).getD
    (symbolRange symbol)
  preview := some (sliceLines file.content symbol.startLine symbol.endLine)
  handle := some (encodeHandle encoder
    ⟨workspaceId, file.path, symbol.startLine, symbol.endLine, file.hash⟩)
  matchType := .declaration
  evidence := .syntactic
  classificationEvidence := .syntactic
  freshness := .current
  referenceKind := .declaration
  enclosingSymbol := occurrence.bind EnclosedOccurrence.enclosingSymbol
  occurrences := (occurrence.map referenceOccurrence).toList
  score := "1.0"
  reasonCodes := ["declaration_match"]

end

structure WindowRank where
  priority : Nat
  line : Nat
  deriving Ord

def windowRank (window : Window EnclosedOccurrence) : WindowRank :=
  ⟨((leadingOccurrence window).map fun occurrence => kindPriority occurrence.role).getD 0,
    window.line⟩

namespace CodeIndex

variable (chars : CharClasses) (classify : Classifier) (index : CodeIndex) {ws : Workspace}
  (encoder : HandleEncoder ws) (scope : SearchScope) (query : ReferenceQuery)
  (target : FallbackTarget)

def selectedOccurrences (file : FileEntry) : List EnclosedOccurrence :=
  (identifierOccurrencesWithSymbols chars classify file.path file.content target.symbol.name
    file.symbols).filter fun occurrence =>
      !((file.path = target.target.path &&
          target.selectedDeclaration = some (occurrence.startByte, occurrence.endByte)) ||
        !(query.kinds = [] || query.kinds.contains occurrence.role))

def referenceWindows (file : FileEntry) : List (Window EnclosedOccurrence) :=
  ((selectedOccurrences chars classify query target file).foldl
    (fun (builder : WindowBuilder EnclosedOccurrence) occurrence =>
      builder.push occurrence.startLine occurrence.endLine occurrence)
    (.new query.contextLines file.lineCount (some occurrencesPerWindow))).windows.mergeSort
      fun left right => (compare (windowRank left) (windowRank right)).isLE

def referenceFiles : List FileEntry :=
  sortByPath ((index.entries.filter fun file =>
    (PathFilterSet.new scope.paths).allows file.path).filter query.scope.allows)

def declarationAdded (targetFile : FileEntry) : Bool :=
  query.kinds.contains .declaration &&
    (PathFilterSet.new scope.paths).allows target.target.path && query.scope.allows targetFile

def fallbackForTarget : AppResult FallbackResponse :=
  match index.get target.target.path with
  | none => .error (.withDetails .symbolNotFound "Reference target file is no longer indexed"
      (.json (json [("path", .string target.target.path)])))
  | some targetFile =>
    let files := index.referenceFiles scope query
    let groups : FileGroups FallbackLocation :=
      if declarationAdded scope query target targetFile then
        FileGroups.new.pushExtra (declarationLocation encoder scope.workspaceId targetFile
          target.symbol target.declarationOccurrence)
      else .new
    let groups := files.foldl (fun (groups : FileGroups FallbackLocation) file =>
      groups.pushFile (referenceWindows chars classify query target file)
        (min scope.limit windowsPerFile) (referenceLocation encoder scope.workspaceId file)) groups
    let groups := groups.sortByFirst fun location => kindPriority location.referenceKind
    let interleaved := groups.interleave scope.limit
    .ok {
      symbol := query.symbol
      snapshotId := scope.snapshotId
      target := target.target
      targetEvidence := target.targetEvidence
      backend := .fallback
      freshness := .current
      evidence := .lexical
      evidenceCaveat := fallbackCaveat
      semantic := false
      definitions := [(target.target.path, target.symbol)]
      referenceScope := query.scope
      referenceKinds := query.kinds
      scannedScope := some ⟨files.length,
        files.foldl (fun bytes file => bytes + utf8Count file.content) 0⟩
      occurrenceCount := files.foldl (fun total file =>
        total + (selectedOccurrences chars classify query target file).length) 0
      resultCount := interleaved.results.length
      truncated := interleaved.truncated
      results := interleaved.results }

end CodeIndex

end CodeWeave
