import CodeWeave.Defs.FallbackLaws
import CodeWeave.Defs.Index.Discovery
import CodeWeave.Defs.LineLaws
import CodeWeave.Defs.OccurrenceLaws

/-! `reference_service`: the lexical fallback with the target it finds, and where its windows
lie. -/

namespace CodeWeave

namespace CodeIndex

def findSymbolsIn (index : CodeIndex) (name : Text) : Option Text → List SymbolDefinition
  | some path => index.findSymbolsAt path name
  | none => index.findSymbols name

variable (chars : CharClasses) (classify : Classifier) (index : CodeIndex)

/-- `resolve_symbol`. -/
def resolveTarget (selector : Text) (definitionPath : Option Text)
    (definitionLine : Option Nat) : AppResult FallbackTarget :=
  let selector := trim selector
  if selector = [] then .error (.invalid "query is required for reference search")
  else
    let definitions := (index.findSymbolsIn selector definitionPath).filter fun found =>
      definitionLine.all fun line => line = found.symbol.startLine
    let rank := fun found : SymbolDefinition =>
      DefinitionRank.mk found.path found.symbol.startLine found.symbol.endLine
    match definitions.mergeSort fun left right => (compare (rank left) (rank right)).isLE with
    | [] => .error (.withDetails .symbolNotFound
        "Reference search requires an indexed symbol definition"
        (.json (json [("symbol", .string selector), ("suggested_action", .str
          "Use literal search for arbitrary text or symbol search to find the declaration.")])))
    | [⟨path, symbol, _⟩] =>
      match index.get path with
      | none => .error (.withDetails .symbolNotFound "Reference target file is no longer indexed"
          (.json (json [("path", .string path)])))
      | some file =>
        let within := (identifierOccurrencesWithSymbols chars classify path file.content symbol.name
          file.symbols).filter fun occurrence =>
            symbol.startLine ≤ occurrence.startLine ∧ occurrence.startLine ≤ symbol.endLine
        let declaration := (within.find? fun occurrence => occurrence.role = .declaration).or
          within.head?
        .ok
          { target := ⟨symbol.name, path,
              (declaration.map fun item => occurrenceRange item.toIdentifierOccurrence).getD
                (symbolRange symbol),
              symbol.kind, if selector ≠ symbol.name then some selector else none⟩
            symbol
            targetEvidence := (declaration.map fun item => item.evidence).getD .syntactic
            declarationOccurrence := declaration }
    | candidates => .error (.withDetails .ambiguousSymbol
        "Reference search found multiple declarations; specify definition_path and definition_line"
        (.json (json [("symbol", .string selector),
          ("candidates", .list (candidates.map fun found =>
            json [("path", .string found.path), ("symbol", found.symbol.json)]))])))

/-- `resolve_position`: the innermost declaration containing a line. -/
def resolveTargetAt (path : Text) (line : Nat) : AppResult FallbackTarget :=
  match index.get path with
  | none => .error (.withDetails .pathNotIndexed "Reference target path is not indexed"
      (.json (json [("path", .string path)])))
  | some file =>
    let rank := fun symbol : Symbol => PositionRank.mk (symbol.startLine ≠ line)
      (symbol.endLine - symbol.startLine) symbol.startLine symbol.endLine symbol.name
    match minByKey rank (file.symbols.filter fun symbol =>
        symbol.startLine ≤ line ∧ line ≤ symbol.endLine) with
    | none => .error (.withDetails .symbolNotFound
        "No indexed declaration contains the requested position"
        (.json (json [("path", .string path), ("line", .number line)])))
    | some symbol => index.resolveTarget chars classify symbol.name (some path)
        (some symbol.startLine)

variable {ws : Workspace} (encoder : HandleEncoder ws)

def fallback (scope : SearchScope) (query : ReferenceQuery) (definitionPath : Option Text)
    (definitionLine : Option Nat) : AppResult FallbackResponse := do
  let target ← index.resolveTarget chars classify query.symbol definitionPath definitionLine
  index.fallbackForTarget chars classify encoder scope query target

def fallbackAtPosition (workspaceId : Text) (snapshotId : SnapshotId) (path : Text) (line : Nat)
    (maxResults : Nat) : AppResult FallbackResponse := do
  let target ← index.resolveTargetAt chars classify path line
  index.fallbackForTarget chars classify encoder ⟨workspaceId, snapshotId, [], maxResults⟩
    ⟨target.symbol.name, .all, [], 0⟩ target

end CodeIndex

theorem WindowBuilder.ordered_pushAll {T : Type} {contextLines lineCount : Nat}
    {most : Option Nat} {hits : List (Hit T)}
    (placed : ∀ hit ∈ hits, 0 < hit.startLine ∧ hit.startLine ≤ hit.endLine ∧
      hit.startLine ≤ lineCount) :
    ∀ window ∈ ((new contextLines lineCount most).pushAll hits).windows,
      window.startLine ≤ window.endLine := by
  induction hits using List.reverseRecOn with
  | nil => exact fun window mem => absurd mem List.not_mem_nil
  | append_singleton hits hit ih =>
    have before := ih fun other mem => placed other (List.mem_append_left _ mem)
    have here := placed hit (List.mem_append_right _ List.mem_cons_self)
    have count : ((new contextLines lineCount most).pushAll hits).lineCount = lineCount :=
      ((new contextLines lineCount most).pushAll_fixed hits).2.1
    have alone : (((new contextLines lineCount most).pushAll hits).alone hit).startLine ≤
        (((new contextLines lineCount most).pushAll hits).alone hit).endLine := by
      simp only [WindowBuilder.alone, count]
      omega
    intro window mem
    rw [pushAll_concat] at mem
    rcases push_cases ((new contextLines lineCount most).pushAll hits) hit with
      ⟨init, last, eq, pushed⟩ | ⟨-, pushed⟩
    · rw [pushed] at mem
      rw [eq] at before
      rcases List.mem_append.mp mem with earlier | joined
      · exact before window (List.mem_append_left _ earlier)
      · have ordered := before last (List.mem_append_right _ List.mem_cons_self)
        rw [List.mem_singleton.mp joined]
        exact Nat.le_trans ordered (Nat.le_max_left _ _)
    · rw [pushed] at mem
      rcases List.mem_append.mp mem with earlier | added
      · exact before window earlier
      · rw [List.mem_singleton.mp added]
        exact alone

theorem count_newlines_lt (text : Text) {index : Nat} (within : index < text.length) :
    (text.take index).count '\n' < (lines text).length := by
  induction text using text_induction generalizing index with
  | nil => cases within
  | last body unmarked nonempty =>
    rw [lines_unmarked unmarked nonempty, List.count_eq_zero_of_not_mem
      fun mem => unmarked (List.mem_of_mem_take mem)]
    exact Nat.one_pos
  | piece body rest unmarked ih =>
    rw [lines_body_append unmarked, List.length_cons]
    by_cases first : index ≤ body.length
    · rw [List.take_append_of_le_length first, List.count_eq_zero_of_not_mem
        fun mem => unmarked (List.mem_of_mem_take mem)]
      exact Nat.succ_pos _
    · obtain ⟨more, rfl⟩ := Nat.exists_eq_add_of_lt (Nat.lt_of_not_le first)
      rw [List.length_append, List.length_cons] at within
      have later := @ih more (by omega)
      rw [Nat.add_assoc, List.take_length_add_append, List.take_succ_cons, List.count_append,
        List.count_cons_self, List.count_eq_zero_of_not_mem unmarked]
      omega

theorem line_sourcePosition {content : Text} {index : Nat} (within : index ≤ content.length) :
    (sourcePosition content index).1 = (content.take index).count '\n' + 1 := by
  have position := sourcePosition_append (content.take index) (content.drop index)
  rw [List.take_append_drop, List.length_take_of_le within] at position
  rw [position, positionAfter]

theorem placed_of_mem_occurrences {chars : CharClasses} {classify : Classifier}
    {path content name : Text} {symbols : List Symbol} {occurrence : EnclosedOccurrence}
    (mem : occurrence ∈
      identifierOccurrencesWithSymbols chars classify path content name symbols) :
    0 < occurrence.startLine ∧ occurrence.startLine ≤ occurrence.endLine ∧
      occurrence.startLine ≤ max (lines content).length 1 := by
  simp only [identifierOccurrencesWithSymbols] at mem
  split at mem
  · cases mem
  · next named =>
    obtain ⟨lexical, found, rfl⟩ := List.mem_map.mp mem
    obtain ⟨index, matched, kept⟩ := List.mem_filterMap.mp found
    split at kept
    · cases kept
    · cases kept
      have bound := (mem_matchIndicesFrom matched).2
      rw [Nat.zero_add] at bound
      have wide := List.length_pos_of_ne_nil named
      have start := line_sourcePosition (Nat.le_trans (Nat.le_add_right ..) bound)
      have finish := line_sourcePosition bound
      have inside := count_newlines_lt content (Nat.lt_of_lt_of_le (Nat.lt_add_of_pos_right wide)
        bound)
      have apart : (content.take (index + (trim name).length)).count '\n' =
          (content.take index).count '\n' +
            ((content.drop index).take (trim name).length).count '\n' := by
        rw [List.take_add, List.count_append]
      simp only [EnclosedOccurrence.classified, lexicalOccurrence, start, finish]
      omega

theorem CodeIndex.ordered_referenceWindows {chars : CharClasses} {classify : Classifier}
    {query : ReferenceQuery} {target : FallbackTarget} {file : FileEntry}
    {window : Window EnclosedOccurrence}
    (mem : window ∈ referenceWindows chars classify query target file) :
    window.startLine ≤ window.endLine := by
  have ordered := @WindowBuilder.ordered_pushAll _ query.contextLines file.lineCount
    (some occurrencesPerWindow) ((selectedOccurrences chars classify query target file).map
      fun occurrence => ⟨occurrence.startLine, occurrence.endLine, occurrence⟩) (by
    intro hit mem
    obtain ⟨occurrence, selected, rfl⟩ := List.mem_map.mp mem
    exact placed_of_mem_occurrences (List.mem_of_mem_filter selected))
  rw [WindowBuilder.pushAll, List.foldl_map] at ordered
  exact ordered window (List.mem_mergeSort.mp mem)

namespace CodeIndex

variable {index : CodeIndex}

def Declares (index : CodeIndex) (found : SymbolDefinition) : Prop :=
  ∃ file, index.lookup found.path = some file ∧ found.symbol ∈ file.symbols

theorem declares_of_mem_findSymbolsAt {path name : Text} {found : SymbolDefinition}
    (mem : found ∈ index.findSymbolsAt path name) : index.Declares found := by
  rw [findSymbolsAt] at mem
  split at mem
  · cases mem
  · next file got =>
    obtain ⟨symbol, among, rfl⟩ := List.mem_map.mp mem
    have own := index.keyed _ file got
    refine ⟨file, ?_, List.mem_of_mem_filter (List.mem_of_mem_filter among)⟩
    rw [own]
    exact got

theorem declared_of_mem_indexedSymbols {name : Text} {file : FileEntry} {symbol : Symbol}
    (mem : (file, symbol) ∈ index.indexedSymbols name) :
    index.lookup file.path = some file ∧ symbol ∈ file.symbols := by
  obtain ⟨place, -, found⟩ := List.mem_filterMap.mp mem
  obtain ⟨entry, here, declared⟩ := Option.bind_eq_some_iff.mp found
  obtain ⟨own, at_place, same⟩ := Option.map_eq_some_iff.mp declared
  cases same
  rw [index.keyed _ file here]
  exact ⟨here, List.mem_of_getElem? at_place⟩

theorem declares_of_mem_findSymbols {name : Text} {found : SymbolDefinition}
    (mem : found ∈ index.findSymbols name) : index.Declares found := by
  rw [findSymbols] at mem
  obtain ⟨⟨file, symbol⟩, among, rfl⟩ := List.mem_map.mp mem
  exact ⟨file, declared_of_mem_indexedSymbols (List.mem_of_mem_filter among)⟩

theorem declares_of_mem_findSymbolsIn {name : Text} {path : Option Text}
    {found : SymbolDefinition} (mem : found ∈ index.findSymbolsIn name path) :
    index.Declares found := by
  cases path with
  | none => exact declares_of_mem_findSymbols mem
  | some path => exact declares_of_mem_findSymbolsAt mem

variable {chars : CharClasses} {classify : Classifier} {target : FallbackTarget}

theorem found_of_resolveTarget {selector : Text} {definitionPath : Option Text}
    {definitionLine : Option Nat}
    (ok : index.resolveTarget chars classify selector definitionPath definitionLine = .ok target) :
    ∃ found, index.Declares found ∧ target.symbol = found.symbol ∧
      target.target.path = found.path := by
  unfold resolveTarget at ok
  dsimp only at ok
  split at ok
  · cases ok
  · split at ok
    · cases ok
    · next path symbol hash sorted =>
      split at ok
      · cases ok
      · cases ok
        have mem := List.mem_mergeSort.mp (sorted ▸ List.mem_cons_self)
        exact ⟨⟨path, symbol, hash⟩,
          declares_of_mem_findSymbolsIn (List.mem_of_mem_filter mem), rfl, rfl⟩
    · cases ok

theorem declares_of_resolveTarget {selector : Text} {definitionPath : Option Text}
    {definitionLine : Option Nat}
    (ok : index.resolveTarget chars classify selector definitionPath definitionLine = .ok target) :
    ∃ found, index.Declares found ∧ target.symbol = found.symbol := by
  obtain ⟨found, declares, same, -⟩ := found_of_resolveTarget ok
  exact ⟨found, declares, same⟩

theorem declares_of_resolveTargetAt {path : Text} {line : Nat}
    (ok : index.resolveTargetAt chars classify path line = .ok target) :
    ∃ found, index.Declares found ∧ target.symbol = found.symbol := by
  unfold resolveTargetAt at ok
  dsimp only at ok
  split at ok
  · cases ok
  · split at ok
    · cases ok
    · exact declares_of_resolveTarget ok

end CodeIndex

end CodeWeave
