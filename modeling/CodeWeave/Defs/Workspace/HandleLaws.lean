import CodeWeave.Defs.Index.Catalogue
import CodeWeave.Defs.Intelligence.References
import CodeWeave.Defs.ReferenceSearch
import CodeWeave.Defs.Workspace.FetchLaws
import CodeWeave.Defs.Workspace.Retrieval

namespace CodeWeave

/-- Where the lines of a handle come from: the index, or a language server, with the lines of
its range. -/
inductive HandleSource
  | indexed
  | located (startLine endLine : Nat)

def HandleSource.Ordered : HandleSource → Prop
  | indexed => True
  | located startLine endLine => startLine ≤ endLine

section

variable {ws : Workspace}

inductive Mints (view : RetrievalView ws) : HandleSource → Text → Prop
  | read {remaining : Nat} {target : ReadTarget} {response : FetchResponse} :
    ws.readTarget view.codec view.encoder view.index remaining target = .ok response →
    Mints view .indexed response.handle
  | symbol {name : Text} {path : Option Text} {limit contextLines : Nat} {includeImports : Bool}
    {value : Value} {text : Text} :
    view.fetchSymbol name path limit contextLines includeImports = .ok value →
    value.get "handle" = some (.string text) → Mints view .indexed text
  | candidate {name : Text} {path : Option Text} {found : SymbolDefinition} {text : Text} :
    found ∈ view.index.findSymbolsIn name path →
    (view.candidateJson found).get "handle" = some (.string text) → Mints view .indexed text
  | textSearch {engine : RegexEngine} {scope : SearchScope} {query : TextQuery}
    {response : TextResponse} {found : TextMatch} :
    view.index.searchText view.encoder engine scope query = .ok response →
    found ∈ response.results → Mints view .indexed found.handle
  | symbolSearch {scope : SearchScope} {query : SymbolQuery} {results : List Value}
    {found : Value} {text : Text} :
    ((view.index.searchSymbols view.encoder scope query).get "results").bind Value.asArray =
      some results →
    found ∈ results → found.get "handle" = some (.string text) → Mints view .indexed text
  | fallback {chars : CharClasses} {classify : Classifier} {scope : SearchScope}
    {query : ReferenceQuery} {path : Option Text} {line : Option Nat} {response : FallbackResponse}
    {found : FallbackLocation} {text : Text} :
    view.index.fallback chars classify view.encoder scope query path line = .ok response →
    found ∈ response.results → found.handle = some text → Mints view .indexed text
  | fallbackAtPosition {chars : CharClasses} {classify : Classifier} {workspaceId : Text}
    {snapshotId : SnapshotId} {path : Text} {line maxResults : Nat} {response : FallbackResponse}
    {found : FallbackLocation} {text : Text} :
    view.index.fallbackAtPosition chars classify view.encoder workspaceId snapshotId path line
      maxResults = .ok response →
    found ∈ response.results → found.handle = some text → Mints view .indexed text
  | semantic {moments : Interleaving ws} {codec : UriCodec} {encoding : PositionEncoding}
    {files later : ResultFiles} {item range : Value} {start finish : Nat × Nat}
    {location : SemanticReferenceLocation} {locations : List SemanticReferenceLocation}
    {snapshotId : SnapshotId} {target : ReferenceTargetSelection} {maxResults : Nat}
    {caveat : String} {text : Text} :
    moments.normalizeLocation codec encoding files item = .ok (location, later) →
    locationRange item = .ok range →
    lspPosition (range.field "start") = .ok start →
    lspPosition (range.field "end") = .ok finish →
    view.index.semanticLocation view.encoder location ∈
      (view.index.semantic view.encoder snapshotId target locations maxResults caveat).results →
    (view.index.semanticLocation view.encoder location).handle = some text →
    Mints view (.located start.1 finish.1) text

def Presentable (encoder : HandleEncoder ws) (text : Text) : Prop :=
  ∃ handle, text = encodeHandle encoder handle ∧ ws.decodeHandle text = .ok handle

variable {encoder : HandleEncoder ws}

theorem encodeHandle_injective {first second : RangeHandleWire}
    (same : encodeHandle encoder first = encodeHandle encoder second) : first = second := by
  have decoded := decodeWire_encodeHandle encoder first
  rw [same, decodeWire_encodeHandle, Option.some.injEq, Except.ok.injEq] at decoded
  exact decoded.symm

theorem presentable_iff (handle : RangeHandleWire) :
    Presentable encoder (encodeHandle encoder handle) ↔
      handle.startLine ≤ handle.endLine ∧ handle.path ≠ [] ∧ (RelPath.new handle.path).isOk := by
  constructor
  · rintro ⟨other, same, decoded⟩
    cases encodeHandle_injective same
    exact valid_of_decodeHandle decoded
  · rintro ⟨order, named, valid⟩
    exact ⟨handle, rfl, decodeHandle_encodeHandle encoder order named valid⟩

theorem CodeIndex.Scanned.placed {parsers : SyntaxParsers} {index : CodeIndex}
    (scanned : index.Scanned parsers) {path : Text} {file : FileEntry}
    (indexed : index.get path = some file) : path ≠ [] ∧ (RelPath.new path).isOk := by
  have own := index.keyed _ file indexed
  have read := scanned _ file indexed
  obtain ⟨relative, placed⟩ := read.placed
  constructor
  · rintro rfl
    exact read.named own
  · rw [← RelPath.new_normalizePathText, ← own, ← placed, RelPath.new_self]
    rfl

theorem CodeIndex.get_of_lookup {parsers : SyntaxParsers} {index : CodeIndex}
    (scanned : index.Scanned parsers) {path : Text} {file : FileEntry}
    (found : index.lookup path = some file) : index.get path = some file := by
  obtain ⟨relative, placed⟩ := (scanned path file found).placed
  have own := index.keyed path file found
  rw [CodeIndex.get, ← own, ← placed, relative.normal, placed, own]
  exact found

theorem presentable_indexed {parsers : SyntaxParsers} {index : CodeIndex}
    (scanned : index.Scanned parsers) {workspaceId path : Text} {startLine endLine : Nat}
    {hash : ContentHash} {file : FileEntry} (indexed : index.get path = some file) :
    Presentable encoder (encodeHandle encoder ⟨workspaceId, path, startLine, endLine, hash⟩) ↔
      startLine ≤ endLine := by
  rw [presentable_iff]
  exact and_iff_left (scanned.placed indexed)

theorem FetchScope.ordered_select (file : FileEntry) (scope : FetchScope) :
    (scope.select file).2.1 ≤ (scope.select file).2.2 := by
  cases scope with
  | full => exact Nat.le_max_right _ _
  | lines startLine endLine =>
    simp only [FetchScope.select]
    omega

variable {parsers : SyntaxParsers} {index : CodeIndex}

theorem presentable_buildFetchResponse {codec : FetchContinuationCodec}
    (scanned : index.Scanned parsers) {path : Text} {file : FileEntry}
    (indexed : index.get path = some file) (scope : FetchScope) (offset limit : Nat) :
    Presentable encoder (ws.buildFetchResponse codec encoder file scope offset limit).handle :=
  (presentable_indexed scanned (get_path_of_get indexed)).mpr (scope.ordered_select file)

theorem presentable_readTarget {codec : FetchContinuationCodec} (scanned : index.Scanned parsers)
    {remaining : Nat} {target : ReadTarget} {response : FetchResponse}
    (ok : ws.readTarget codec encoder index remaining target = .ok response) :
    Presentable encoder response.handle := by
  obtain ⟨file, scope, offset, serves, rfl⟩ := readTarget_eq_ok.mp ok
  exact presentable_buildFetchResponse scanned serves.get_path _ _ _

theorem CodeIndex.Declares.ordered (scanned : index.Scanned parsers) {found : SymbolDefinition}
    (declares : index.Declares found) : found.symbol.Ordered := by
  obtain ⟨file, indexed, declared⟩ := declares
  exact (scanned _ file indexed).ordered declared

theorem presentable_declaration (scanned : index.Scanned parsers) {found : SymbolDefinition}
    (declares : index.Declares found) (workspaceId : Text) (hash : ContentHash) :
    Presentable encoder (encodeHandle encoder
      ⟨workspaceId, found.path, found.symbol.startLine, found.symbol.endLine, hash⟩) := by
  obtain ⟨file, indexed, -⟩ := id declares
  exact (presentable_indexed scanned (CodeIndex.get_of_lookup scanned indexed)).mpr
    (declares.ordered scanned)

theorem presentable_fetchSymbol {view : RetrievalView ws} (scanned : view.index.Scanned parsers)
    {name : Text} {path : Option Text} {limit contextLines : Nat} {includeImports : Bool}
    {value : Value} {text : Text}
    (ok : view.fetchSymbol name path limit contextLines includeImports = .ok value)
    (handle : value.get "handle" = some (.string text)) : Presentable view.encoder text := by
  simp only [RetrievalView.fetchSymbol, bind_eq_ok] at ok
  obtain ⟨⟨file, symbol⟩, declared, ok⟩ := ok
  cases ok
  have indexed : ∃ path, view.index.get path = some file := by
    unfold RetrievalView.declaredSymbol at declared
    dsimp only at declared
    split at declared
    · cases declared
    · split at declared
      · cases declared
      · next got =>
        cases declared
        exact ⟨_, got⟩
    · cases declared
  obtain ⟨path, indexed⟩ := indexed
  cases handle
  exact presentable_buildFetchResponse scanned indexed _ _ _

theorem presentable_textSearch (scanned : index.Scanned parsers) {engine : RegexEngine}
    {scope : SearchScope} {query : TextQuery} {response : TextResponse} {found : TextMatch}
    (ok : index.searchText encoder engine scope query = .ok response)
    (mem : found ∈ response.results) : Presentable encoder found.handle := by
  obtain ⟨matcher, chosen, -, results, sub, -⟩ := CodeIndex.searchText_chosen ok
  rw [results] at mem
  obtain ⟨⟨file, window⟩, among, rfl⟩ := List.mem_map.mp mem
  obtain ⟨searched, here⟩ := mem_windowsOf.mp (sub.subset among)
  obtain ⟨indexed, -, -⟩ := CodeIndex.mem_searched.mp searched
  obtain ⟨-, start, finish, -, -⟩ := matcher.window_in_file file query.contextLines here
  exact (presentable_indexed scanned (CodeIndex.get_of_lookup scanned indexed)).mpr
    (Nat.le_trans start finish)

theorem presentable_symbolSearch (scanned : index.Scanned parsers) {scope : SearchScope}
    {query : SymbolQuery} {results : List Value} {found : Value} {text : Text}
    (listed : ((index.searchSymbols encoder scope query).get "results").bind Value.asArray =
      some results)
    (mem : found ∈ results) (handle : found.get "handle" = some (.string text)) :
    Presentable encoder text := by
  have results_eq : ((index.searchSymbols encoder scope query).get "results").bind Value.asArray =
      some (Items.ofList _).toList := rfl
  rw [results_eq, Items.toList_ofList, Option.some.injEq] at listed
  rw [← listed] at mem
  obtain ⟨matched, taken, rfl⟩ := List.mem_map.mp mem
  have among := List.mem_mergeSort.mp (List.mem_of_mem_take taken)
  obtain ⟨name, -, ranked⟩ := List.mem_flatMap.mp among
  split at ranked
  · cases ranked
  · obtain ⟨⟨file, symbol⟩, declared, rfl⟩ := List.mem_map.mp ranked
    obtain ⟨indexed, declared⟩ :=
      CodeIndex.declared_of_mem_indexedSymbols (List.mem_of_mem_filter declared)
    cases handle
    exact (presentable_indexed scanned (CodeIndex.get_of_lookup scanned indexed)).mpr
      ((scanned _ file indexed).ordered declared)

theorem presentable_fallbackForTarget (scanned : index.Scanned parsers) {chars : CharClasses}
    {classify : Classifier} {scope : SearchScope} {query : ReferenceQuery}
    {target : FallbackTarget} {response : FallbackResponse} {found : FallbackLocation}
    {text : Text} (ordered : target.symbol.Ordered)
    (ok : index.fallbackForTarget chars classify encoder scope query target = .ok response)
    (mem : found ∈ response.results) (handle : found.handle = some text) :
    Presentable encoder text := by
  obtain ⟨targetFile, windows, chosen⟩ := CodeIndex.fallbackForTarget_chosen ok
  rw [chosen.results] at mem
  obtain ⟨item, among, rfl⟩ := List.mem_map.mp mem
  cases item with
  | none =>
    cases handle
    exact (presentable_indexed scanned (get_path_of_get chosen.indexed)).mpr ordered
  | some item =>
    obtain ⟨file, window⟩ := item
    cases handle
    have shown : (file, window) ∈ windows := by
      rcases List.mem_append.mp among with declaration | window
      · split at declaration
        · cases List.mem_singleton.mp declaration
        · cases declaration
      · obtain ⟨_, mem, same⟩ := List.mem_map.mp window
        cases same
        exact mem
    obtain ⟨searched, here⟩ := mem_windowsOf.mp (chosen.matched.subset shown)
    obtain ⟨indexed, -⟩ := CodeIndex.mem_referenceFiles.mp searched
    exact (presentable_indexed scanned (CodeIndex.get_of_lookup scanned indexed)).mpr
      (CodeIndex.ordered_referenceWindows here)

theorem lines_of_normalizeLocation {moments : Interleaving ws} {codec : UriCodec}
    {encoding : PositionEncoding} {files later : ResultFiles} {item range : Value}
    {location : SemanticReferenceLocation} {start finish : Nat × Nat}
    (normalized : moments.normalizeLocation codec encoding files item = .ok (location, later))
    (ranged : locationRange item = .ok range)
    (starts : lspPosition (range.field "start") = .ok start)
    (ends : lspPosition (range.field "end") = .ok finish) :
    location.range.start.line = start.1 + 1 ∧ location.range.finish.line = finish.1 + 1 := by
  simp only [Interleaving.normalizeLocation, bind_eq_ok] at normalized
  obtain ⟨uri, -, value, ranged', relative, -, ⟨file, after⟩, -, converted, convert, same⟩ :=
    normalized
  cases same
  rw [ranged, Except.ok.injEq] at ranged'
  subst ranged'
  simp only [convertRange, bind_eq_ok] at convert
  obtain ⟨start', starts', finish', ends', first, -, second, -, same⟩ := convert
  cases same
  rw [starts, Except.ok.injEq] at starts'
  rw [ends, Except.ok.injEq] at ends'
  subst starts' ends'
  exact ⟨rfl, rfl⟩

theorem presentable_semanticLocation (scanned : index.Scanned parsers)
    {location : SemanticReferenceLocation} {text : Text}
    (handle : (index.semanticLocation encoder location).handle = some text) :
    Presentable encoder text ↔
      location.range.start.line ≤ location.range.finish.line := by
  obtain ⟨file, indexed, rfl⟩ := Option.map_eq_some_iff.mp handle
  exact presentable_indexed scanned indexed

end

theorem normalizeLocation_of_mem {moments : Interleaving ws} {codec : UriCodec}
    {encoding : PositionEncoding} {items : List Value} {files later : ResultFiles}
    {locations : List SemanticReferenceLocation} (normalized :
      moments.normalizeReferenceLocations codec encoding files items = .ok (locations, later)) :
    ∀ location ∈ locations, ∃ item ∈ items, ∃ before after,
      moments.normalizeLocation codec encoding before item = .ok (location, after) := by
  induction items generalizing files locations with
  | nil =>
    cases normalized
    exact fun location mem => absurd mem List.not_mem_nil
  | cons item rest ih =>
    simp only [Interleaving.normalizeReferenceLocations, bind_eq_ok] at normalized
    obtain ⟨⟨first, between⟩, here, ⟨others, after⟩, there, same⟩ := normalized
    cases same
    intro location mem
    rcases List.mem_cons.mp mem with rfl | among
    · exact ⟨item, List.mem_cons_self, files, between, here⟩
    · obtain ⟨other, listed, found⟩ := ih there location among
      exact ⟨other, List.mem_cons_of_mem _ listed, found⟩

theorem exists_mints_semantic {view : RetrievalView ws} {moments : Interleaving ws}
    {codec : UriCodec} {encoding : PositionEncoding} {items : List Value}
    {files later : ResultFiles} {locations : List SemanticReferenceLocation}
    {snapshotId : SnapshotId} {target : ReferenceTargetSelection} {maxResults : Nat}
    {caveat : String} {result : ReferenceLocation} {text : Text} (normalized :
      moments.normalizeReferenceLocations codec encoding files items = .ok (locations, later))
    (mem : result ∈
      (view.index.semantic view.encoder snapshotId target locations maxResults caveat).results)
    (handle : result.handle = some text) :
    ∃ startLine endLine, Mints view (.located startLine endLine) text := by
  obtain ⟨location, among, rfl⟩ := CodeIndex.mem_semantic_results _ _ mem
  obtain ⟨item, -, before, after, found⟩ := normalizeLocation_of_mem normalized location among
  obtain ⟨range, start, finish, ranged, starts, ends⟩ : ∃ range start finish,
      locationRange item = .ok range ∧ lspPosition (range.field "start") = .ok start ∧
        lspPosition (range.field "end") = .ok finish := by
    have steps := found
    simp only [Interleaving.normalizeLocation, convertRange, bind_eq_ok] at steps
    obtain ⟨-, -, range, ranged, -, -, -, -, -, ⟨start, starts, finish, ends, -⟩, -⟩ := steps
    exact ⟨range, start, finish, ranged, starts, ends⟩
  exact ⟨start.1, finish.1, .semantic found ranged starts ends mem handle⟩

/-- Of the handles in the answers of a server, those for lines of its index are all accepted
when they are presented to it, and those for a range of a language server just where the range
does not end on a line before the one it starts on. -/
theorem minted_presentable_iff (ws : Workspace) (parsers : SyntaxParsers)
    (walks : ws.extractSymbols = extractSymbols parsers) (view : RetrievalView ws)
    (indexes : Indexes ws parsers view.index) {source : HandleSource} {text : Text}
    (minted : Mints view source text) : Presentable view.encoder text ↔ source.Ordered := by
  have scanned := indexes.scanned walks
  cases minted with
  | read ok => exact iff_of_true (presentable_readTarget scanned ok) trivial
  | symbol ok handle => exact iff_of_true (presentable_fetchSymbol scanned ok handle) trivial
  | candidate mem handle =>
    cases handle
    have declares := CodeIndex.declares_of_mem_findSymbolsIn mem
    exact iff_of_true (presentable_declaration scanned declares ws.id _) trivial
  | textSearch ok mem => exact iff_of_true (presentable_textSearch scanned ok mem) trivial
  | symbolSearch listed mem handle =>
    exact iff_of_true (presentable_symbolSearch scanned listed mem handle) trivial
  | fallback ok mem handle =>
    simp only [CodeIndex.fallback, bind_eq_ok] at ok
    obtain ⟨target, resolved, ok⟩ := ok
    obtain ⟨found, declares, same⟩ := CodeIndex.declares_of_resolveTarget resolved
    have ordered : target.symbol.Ordered := same ▸ declares.ordered scanned
    exact iff_of_true (presentable_fallbackForTarget scanned ordered ok mem handle) trivial
  | fallbackAtPosition ok mem handle =>
    simp only [CodeIndex.fallbackAtPosition, bind_eq_ok] at ok
    obtain ⟨target, resolved, ok⟩ := ok
    obtain ⟨found, declares, same⟩ := CodeIndex.declares_of_resolveTargetAt resolved
    have ordered : target.symbol.Ordered := same ▸ declares.ordered scanned
    exact iff_of_true (presentable_fallbackForTarget scanned ordered ok mem handle) trivial
  | semantic normalized ranged starts ends _ handle =>
    obtain ⟨start, finish⟩ := lines_of_normalizeLocation normalized ranged starts ends
    rw [presentable_semanticLocation scanned handle, start, finish]
    exact Nat.add_le_add_iff_right

namespace Sample

def noParsers : SyntaxParsers where
  parse _ _ := none
  ordered _ _ _ parsed := by cases parsed

def walking : Workspace :=
  { Workspace.plain with
    extractSymbols := extractSymbols noParsers
    decodeWire := declaring.decodeWire }

def twoLines : Disk := .holding [(["a".toList], "f\ng\n".toList)]

def walkedIndex : CodeIndex := ((walking.scan twoLines .calm).toOption).getD .empty

theorem indexes_walked : Indexes walking noParsers walkedIndex := by
  have some : ((walking.scan twoLines .calm).toOption).isSome = true := by decide +kernel
  obtain ⟨index, ok⟩ := Option.isSome_iff_exists.mp some
  have same : walkedIndex = index := by rw [walkedIndex, ok, Option.getD_some]
  rw [same]
  exact .scan SymbolCache.extracted_empty (eq_ok_of_toOption ok)

def walkedView : RetrievalView walking where
  index := walkedIndex
  snapshotId := []
  engine := ⟨⟨fun _ _ => .ok fun _ => false⟩, id⟩
  encoder := ⟨handleCode.put, handles.decode_encode⟩
  codec := continuations
  runs := ∅
  outputs _ := .new 0
  maxSearchResults := 20
  reconcilePending := false

def walkedMoments : Interleaving walking where
  start := .opened walking twoLines
  opened := walking.opened_opened (by decide +kernel)
  between _ := []
  faults _ _ := none

def locationA (startLine endLine : Nat) : Value :=
  json [("uri", .str "file:///w/a"), ("range", json [
    ("start", json [("line", .number startLine), ("character", .number 0)]),
    ("end", json [("line", .number endLine), ("character", .number 0)])])]

def locatedA (startLine endLine : Nat) : SemanticReferenceLocation :=
  ⟨"a".toList, ⟨⟨startLine + 1, 1, none⟩, ⟨endLine + 1, 1, none⟩⟩⟩

def targetA : ReferenceTargetSelection where
  target := ⟨"f".toList, "a".toList, ⟨⟨1, 1, none⟩, ⟨1, 2, none⟩⟩, "function_item".toList, none⟩
  symbol := ⟨"f".toList, "function_item".toList, 1, 1, "f".toList⟩
  targetEvidence := .syntactic

end Sample

open Sample in
/-- A handle for a range that ends a line above the one it starts on is made, and is not
accepted. -/
theorem reversed_not_presentable : Indexes walking noParsers walkedView.index ∧
    ∃ text, Mints walkedView (.located 1 0) text ∧ ¬Presentable walkedView.encoder text := by
  have normalizes : ((walkedMoments.normalizeLocation (.new false "/w".toList none) .utf16 ⟨0, ∅⟩
      (locationA 1 0)).toOption).any (fun found => found.1 = locatedA 1 0) = true := by
    decide +kernel
  obtain ⟨⟨location, later⟩, ok, same⟩ := (Option.any_eq_true _ _).mp normalizes
  cases (show location = locatedA 1 0 from of_decide_eq_true same)
  have shown : walkedView.index.semanticLocation walkedView.encoder (locatedA 1 0) ∈
      (walkedView.index.semantic walkedView.encoder [] targetA [locatedA 1 0] 10 "").results := by
    decide +kernel
  have held : (walkedView.index.semanticLocation walkedView.encoder
      (locatedA 1 0)).handle.isSome = true := by decide +kernel
  obtain ⟨text, handle⟩ := Option.isSome_iff_exists.mp held
  refine ⟨indexes_walked, text, ?_, fun presentable => ?_⟩
  · exact .semantic (eq_ok_of_toOption ok) rfl rfl rfl shown handle
  · have ordered := (presentable_semanticLocation (indexes_walked.scanned rfl) handle).mp
      presentable
    exact absurd ordered (by decide)

open Sample in
theorem read_presentable : ∃ response,
    walking.readTarget walkedView.codec walkedView.encoder walkedView.index 10
      (.path "a".toList none none) = .ok response ∧
    Presentable walkedView.encoder response.handle := by
  have reads : ((walking.readTarget walkedView.codec walkedView.encoder walkedView.index 10
      (.path "a".toList none none)).toOption).isSome = true := by decide +kernel
  obtain ⟨response, read⟩ := Option.isSome_iff_exists.mp reads
  have ok := eq_ok_of_toOption read
  exact ⟨response, ok, (minted_presentable_iff walking noParsers rfl walkedView indexes_walked
    (.read ok)).mpr trivial⟩

end CodeWeave
