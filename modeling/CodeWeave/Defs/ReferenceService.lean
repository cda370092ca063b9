import CodeWeave.Defs.Index.Query
import CodeWeave.Defs.Index.Symbols
import Mathlib.Data.List.Destutter

/-! `reference_service`: the declaration a position lies in, and the shape of semantic
locations. -/

namespace CodeWeave

inductive ReferenceKind
  | declaration
  | call
  | imported
  | typed
  | read
  | write
  | other
  deriving DecidableEq

inductive Evidence
  | lexical
  | syntactic
  | semantic
  deriving DecidableEq

inductive Freshness
  | current
  deriving DecidableEq

inductive ReferenceBackend
  | semantic
  | fallback
  deriving DecidableEq

structure IdentifierOccurrence where
  startByte : Nat
  endByte : Nat
  startLine : Nat
  startColumn : Nat
  endLine : Nat
  endColumn : Nat
  role : ReferenceKind
  evidence : Evidence
  deriving DecidableEq

structure ReferencePosition where
  line : Nat
  column : Nat
  byte : Option Nat
  deriving DecidableEq, Ord

structure ReferenceRange where
  start : ReferencePosition
  finish : ReferencePosition
  deriving DecidableEq, Ord

structure ReferenceTarget where
  name : Text
  path : Text
  range : ReferenceRange
  kind : Text
  qualifiedName : Option Text
  deriving DecidableEq

structure ReferenceTargetSelection where
  target : ReferenceTarget
  symbol : Symbol
  targetEvidence : Evidence
  deriving DecidableEq

structure SemanticReferenceLocation where
  path : Text
  range : ReferenceRange
  deriving DecidableEq, Ord

structure ReferenceLocation where
  path : Text
  line : Nat
  startLine : Nat
  endLine : Nat
  range : ReferenceRange
  preview : Option Text
  handle : Option Text
  evidence : Evidence
  freshness : Freshness
  deriving DecidableEq

structure ReferenceResponse where
  symbol : Text
  snapshotId : SnapshotId
  target : ReferenceTarget
  targetEvidence : Evidence
  backend : ReferenceBackend
  freshness : Freshness
  evidence : Evidence
  evidenceCaveat : String
  semantic : Bool
  occurrenceCount : Nat
  resultCount : Nat
  truncated : Bool
  results : List ReferenceLocation
  deriving DecidableEq

def minByKey {A K : Type} [Ord K] (key : A → K) : List A → Option A
  | [] => none
  | item :: rest =>
    match minByKey key rest with
    | none => some item
    | some least => if (compare (key least) (key item)).isLT then some least else some item

structure PositionRank where
  elsewhere : Bool
  lines : Nat
  startLine : Nat
  endLine : Nat
  name : Text
  deriving Ord

structure DefinitionRank where
  path : Text
  startLine : Nat
  endLine : Nat
  deriving Ord

def symbolRange (symbol : Symbol) : ReferenceRange :=
  ⟨⟨symbol.startLine, 1, none⟩, ⟨symbol.endLine, 1, none⟩⟩

def occurrenceRange (occurrence : IdentifierOccurrence) : ReferenceRange :=
  ⟨⟨occurrence.startLine, occurrence.startColumn, some occurrence.startByte⟩,
    ⟨occurrence.endLine, occurrence.endColumn, some occurrence.endByte⟩⟩

/-- The scan of a content for an identifier, with what a parser says of its
occurrences: path, content, identifier and the symbols of the file. -/
abbrev OccurrenceScan := Text → Text → Text → List Symbol → List IdentifierOccurrence

namespace CodeIndex

variable (scan : OccurrenceScan) (index : CodeIndex)

def resolveSymbol (selector definitionPath : Text) (definitionLine : Nat) :
    AppResult ReferenceTargetSelection :=
  let selector := trim selector
  if selector = [] then .error (.invalid "query is required for reference search")
  else
    let definitions := (index.findSymbolsAt definitionPath selector).filter fun found =>
      definitionLine = found.symbol.startLine
    let rank := fun found : SymbolDefinition =>
      DefinitionRank.mk found.path found.symbol.startLine found.symbol.endLine
    match definitions.mergeSort fun left right => (compare (rank left) (rank right)).isLE with
    | [] => .error (.withDetails .symbolNotFound
        "Reference search requires an indexed symbol definition"
        (.json (json [("symbol", .string selector), ("suggested_action", .str
          "Use literal search for arbitrary text or symbol search to find the declaration.")])))
    | [⟨path, symbol, _⟩] =>
      match index.get path with
      | none => .error (.withDetails .symbolNotFound "Reference target file is no longer indexed"
          (.json (json [("path", .string path)])))
      | some file =>
        let within := (scan path file.content symbol.name file.symbols).filter fun occurrence =>
          symbol.startLine ≤ occurrence.startLine ∧ occurrence.startLine ≤ symbol.endLine
        let declaration := (within.find? fun occurrence => occurrence.role = .declaration).or
          within.head?
        .ok ⟨⟨symbol.name, path, (declaration.map occurrenceRange).getD (symbolRange symbol),
            symbol.kind, if selector ≠ symbol.name then some selector else none⟩,
          symbol, (declaration.map IdentifierOccurrence.evidence).getD .syntactic⟩
    | candidates => .error (.withDetails .ambiguousSymbol
        "Reference search found multiple declarations; specify definition_path and definition_line"
        (.json (json [("symbol", .string selector),
          ("candidates", .list (candidates.map fun found =>
            json [("path", .string found.path), ("symbol", found.symbol.json)]))])))

def resolvePosition (path : Text) (line : Nat) : AppResult ReferenceTargetSelection :=
  match index.get path with
  | none => .error (.withDetails .pathNotIndexed "Reference target path is not indexed"
      (.json (json [("path", .string path)])))
  | some file =>
    let rank := fun symbol : Symbol => PositionRank.mk (symbol.startLine ≠ line)
      (symbol.endLine - symbol.startLine) symbol.startLine symbol.endLine symbol.name
    match minByKey rank (file.symbols.filter fun symbol =>
        symbol.startLine ≤ line ∧ line ≤ symbol.endLine) with
    | none => .error (.withDetails .symbolNotFound
        "No indexed declaration contains the requested position"
        (.json (json [("path", .string path), ("line", .number line)])))
    | some symbol => index.resolveSymbol scan symbol.name path symbol.startLine

variable {ws : Workspace} (encoder : HandleEncoder ws)

def semanticLocation (location : SemanticReferenceLocation) : ReferenceLocation :=
  let start := location.range.start.line
  let finish := location.range.finish.line
  let indexed := index.get location.path
  { path := location.path
    line := start
    startLine := start
    endLine := finish
    range := location.range
    preview := indexed.map fun file => sliceLines file.content start finish
    handle := indexed.map fun file =>
      encodeHandle encoder ⟨ws.id, location.path, start, finish, file.hash⟩
    evidence := .semantic
    freshness := .current }

def selectLocations (target : ReferenceTarget) (locations : List SemanticReferenceLocation) :
    List SemanticReferenceLocation :=
  ((locations.mergeSort fun left right => (compare left right).isLE).destutter (· ≠ ·)).filter
    fun location => location.path ≠ target.path ∨ location.range ≠ target.range

def semantic (snapshotId : SnapshotId) (target : ReferenceTargetSelection)
    (locations : List SemanticReferenceLocation) (maxResults : Nat) (caveat : String) :
    ReferenceResponse :=
  let locations := selectLocations target.target locations
  let results := (locations.take (max maxResults 1)).map (index.semanticLocation encoder)
  { symbol := target.symbol.name
    snapshotId
    target := target.target
    targetEvidence := target.targetEvidence
    backend := .semantic
    freshness := .current
    evidence := .semantic
    evidenceCaveat := caveat
    semantic := true
    occurrenceCount := locations.length
    resultCount := results.length
    truncated := results.length < locations.length
    results }

theorem mem_selectLocations {target : ReferenceTarget}
    {locations : List SemanticReferenceLocation} {location : SemanticReferenceLocation}
    (mem : location ∈ selectLocations target locations) : location ∈ locations := by
  have sorted := (List.destutter_sublist _ _).subset (List.mem_filter.mp mem).1
  exact List.mem_mergeSort.mp sorted

theorem mem_semantic_results {snapshotId : SnapshotId} {target : ReferenceTargetSelection}
    {locations : List SemanticReferenceLocation} {maxResults : Nat} {caveat : String}
    {result : ReferenceLocation}
    (mem : result ∈ (index.semantic encoder snapshotId target locations maxResults caveat).results) :
    ∃ location ∈ locations, result = index.semanticLocation encoder location := by
  obtain ⟨location, taken, rfl⟩ := List.mem_map.mp mem
  exact ⟨location, mem_selectLocations (List.mem_of_mem_take taken), rfl⟩

end CodeIndex

end CodeWeave
