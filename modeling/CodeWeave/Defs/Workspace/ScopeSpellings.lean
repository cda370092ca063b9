import CodeWeave.Defs.Index.Scopes
import CodeWeave.Defs.ReferenceSearch
import CodeWeave.Defs.Workspace.TruncationLaws

namespace CodeWeave

structure RetrievalOperationInput where
  path : Option Text
  paths : Option (List Text)

/-- `paths`, and `path` where it is not one of them. -/
def RetrievalOperationInput.scopePaths (input : RetrievalOperationInput) : List Text :=
  let paths := input.paths.getD []
  match input.path with
  | none => paths
  | some path => if path ∈ paths then paths else paths ++ [path]

def CodeIndex.PlainlyKeyed (index : CodeIndex) : Prop :=
  ∀ path file, index.lookup path = some file →
    ∃ key, PlainPath key ∧ key ≠ [] ∧ path = joinSegments key

def SameResults {ws : Workspace} (view : RetrievalView ws) (chars : CharClasses)
    (classify : Classifier) (first second : List Text) : Prop :=
  ∀ index : CodeIndex, index.PlainlyKeyed → ∀ maxSearchResults maxResults : Nat,
    (∀ target : SearchTarget,
      { view with index, maxSearchResults }.executeIndexSearch ⟨target, first, maxResults⟩ =
        { view with index, maxSearchResults }.executeIndexSearch ⟨target, second, maxResults⟩) ∧
    ∀ query definitionPath definitionLine,
      index.fallback chars classify view.encoder ⟨ws.id, view.snapshotId, first, maxResults⟩ query
          definitionPath definitionLine =
        index.fallback chars classify view.encoder ⟨ws.id, view.snapshotId, second, maxResults⟩
          query definitionPath definitionLine

def SameScope (first second : List Text) : Prop :=
  ∀ key, PlainPath key → key ≠ [] → (ScopeCovers first key ↔ ScopeCovers second key)

def OneNamed (filters : List Text) : Prop :=
  (filters.filter fun filter => normalizePathText filter ≠ []).length = 1

structure ScopesAgree (first second : List Text) : Prop where
  allows : ∀ key, PlainPath key → key ≠ [] →
    (PathFilterSet.new first).allows (joinSegments key) =
      (PathFilterSet.new second).allows (joinSegments key)
  single : (PathFilterSet.new first).normalized.length = 1 ↔
    (PathFilterSet.new second).normalized.length = 1
  some : 0 < (PathFilterSet.new first).normalized.length ↔
    0 < (PathFilterSet.new second).normalized.length

theorem oneNamed_iff (filters : List Text) :
    (PathFilterSet.new filters).normalized.length = 1 ↔ OneNamed filters := by
  rw [PathFilterSet.new, List.filter_map, List.length_map, OneNamed]
  rfl

theorem blank_iff (filters : List Text) :
    ¬0 < (PathFilterSet.new filters).normalized.length ↔ Blank filters := by
  rw [PathFilterSet.new, List.length_pos_iff, not_not, List.filter_eq_nil_iff, Blank]
  constructor
  · intro none filter mem
    simpa using none _ (List.mem_map_of_mem mem)
  · intro blank text mem
    obtain ⟨filter, among, rfl⟩ := List.mem_map.mp mem
    simp [blank filter among]

theorem SpelledPlainly.blank_or {filters : List Text} (spelled : SpelledPlainly filters) :
    Blank filters ∨ ∃ top ∈ filters, PlainlySpelled top := by
  rcases spelled with blank | each
  · exact .inl blank
  · cases filters with
    | nil => exact .inl fun _ none => absurd none List.not_mem_nil
    | cons filter rest =>
      obtain ⟨top, among, plainly, -⟩ := each filter List.mem_cons_self
      exact .inr ⟨top, among, plainly⟩

theorem Blank.not_oneNamed {filters : List Text} (blank : Blank filters) : ¬OneNamed filters := by
  rw [← oneNamed_iff]
  exact fun one => (blank_iff filters).mpr blank (by omega)

theorem SpelledPlainly.blank {filters : List Text} (spelled : SpelledPlainly filters)
    (covers : ∀ key, PlainPath key → key ≠ [] → ScopeCovers filters key) : Blank filters := by
  rcases spelled with blank | each
  · exact blank
  · obtain ⟨name, plain, fresh⟩ := exists_fresh filters
    rcases covers [name] plain (List.cons_ne_nil _ _) with rfl | ⟨filter, mem, below⟩
    · exact fun _ none => absurd none List.not_mem_nil
    · obtain ⟨top, among, ⟨some, -⟩, above⟩ := each filter mem
      exact absurd (fresh top among (above.trans below)) some

theorem SameScope.of_components {first second : List Text}
    (same : first.map scopeComponents = second.map scopeComponents) : SameScope first second := by
  have covers (filters : List Text) (key : List Text) : ScopeCovers filters key ↔
      filters.map scopeComponents = [] ∨ ∃ top ∈ filters.map scopeComponents, top <+: key := by
    simp [ScopeCovers]
  intro key _ _
  rw [covers, covers, same]

theorem SameScope.symm {first second : List Text} (same : SameScope first second) :
    SameScope second first :=
  fun key plain named => (same key plain named).symm

theorem SameScope.blank {first second : List Text} (same : SameScope first second)
    (spelled : SpelledPlainly second) (blank : Blank first) : Blank second :=
  spelled.blank fun key plain named => (same key plain named).mp (blank.covers key)

theorem SameScope.agree {first second : List Text} (same : SameScope first second)
    (spelled : SpelledPlainly first) (spelled' : SpelledPlainly second)
    (precise : ScopeExact first) (precise' : ScopeExact second)
    (single : OneNamed first ↔ OneNamed second) : ScopesAgree first second where
  allows key plain named := Bool.eq_iff_iff.mpr
    (((precise key plain named).trans (same key plain named)).trans
      (precise' key plain named).symm)
  single := by rw [oneNamed_iff, oneNamed_iff, single]
  some := by
    rw [← not_iff_not, blank_iff, blank_iff]
    exact ⟨same.blank spelled', same.symm.blank spelled⟩

section

variable {first second : List Text} {index : CodeIndex}

theorem ScopesAgree.filter (agree : ScopesAgree first second) (plain : index.PlainlyKeyed) :
    (index.entries.filter fun file => (PathFilterSet.new first).allows file.path) =
      index.entries.filter fun file => (PathFilterSet.new second).allows file.path := by
  refine List.filter_congr fun file mem => ?_
  obtain ⟨key, plainKey, named, text⟩ := plain file.path file (CodeIndex.mem_entries.mp mem)
  rw [text]
  exact agree.allows key plainKey named

theorem ScopesAgree.symbolMatches (agree : ScopesAgree first second) (plain : index.PlainlyKeyed)
    (workspaceId : Text) (snapshotId : SnapshotId) (limit : Nat) (query : SymbolQuery) :
    index.symbolMatches ⟨workspaceId, snapshotId, first, limit⟩ query =
      index.symbolMatches ⟨workspaceId, snapshotId, second, limit⟩ query := by
  rw [CodeIndex.symbolMatches, CodeIndex.symbolMatches]
  refine List.flatMap_congr fun name _ => ?_
  split
  · rfl
  · refine congrArg _ (List.filter_congr fun found mem => ?_)
    have indexed := (CodeIndex.declared_of_mem_indexedSymbols mem).1
    obtain ⟨key, plainKey, named, text⟩ := plain found.1.path found.1 indexed
    rw [text]
    exact agree.allows key plainKey named

theorem ScopesAgree.search {ws : Workspace} (view : RetrievalView ws)
    (agree : ScopesAgree first second) (plain : view.index.PlainlyKeyed) (target : SearchTarget)
    (maxResults limit : Nat) : view.search ⟨target, first, maxResults⟩ limit =
      view.search ⟨target, second, maxResults⟩ limit := by
  have filtered := agree.filter plain
  cases target with
  | text query =>
    simp only [RetrievalView.search, RetrievalView.searchScope, CodeIndex.searchText,
      SearchScope.limit, filtered, agree.single]
    rfl
  | filename query =>
    simp only [RetrievalView.search, RetrievalView.searchScope, CodeIndex.searchFilenames,
      SearchScope.limit, filtered]
    rfl
  | symbol query =>
    simp only [RetrievalView.search, RetrievalView.searchScope, CodeIndex.searchSymbols,
      SearchScope.limit, agree.symbolMatches plain]
  | repoMap =>
    simp only [RetrievalView.search, RetrievalView.searchScope, CodeIndex.repoMap,
      SearchScope.limit, filtered, agree.some]
    rfl

theorem ScopesAgree.fallback {ws : Workspace} {encoder : HandleEncoder ws}
    (agree : ScopesAgree first second) (plain : index.PlainlyKeyed) (chars : CharClasses)
    (classify : Classifier) (workspaceId : Text) (snapshotId : SnapshotId) (limit : Nat)
    (query : ReferenceQuery) (definitionPath : Option Text) (definitionLine : Option Nat) :
    index.fallback chars classify encoder ⟨workspaceId, snapshotId, first, limit⟩ query
        definitionPath definitionLine =
      index.fallback chars classify encoder ⟨workspaceId, snapshotId, second, limit⟩ query
        definitionPath definitionLine := by
  rw [CodeIndex.fallback, CodeIndex.fallback]
  cases resolved : index.resolveTarget chars classify query.symbol definitionPath
      definitionLine with
  | error => rfl
  | ok target =>
    obtain ⟨found, ⟨file, indexed, -⟩, -, own⟩ := CodeIndex.found_of_resolveTarget resolved
    obtain ⟨key, plainKey, named, text⟩ := plain found.path file indexed
    have placed : (PathFilterSet.new first).allows target.target.path =
        (PathFilterSet.new second).allows target.target.path := by
      rw [own, text]
      exact agree.allows key plainKey named
    simp only [bind, Except.bind, CodeIndex.fallbackForTarget, CodeIndex.referenceFiles,
      CodeIndex.declarationAdded, SearchScope.limit, agree.filter plain, placed]
    rfl

theorem ScopesAgree.sameResults {ws : Workspace} {view : RetrievalView ws} {chars : CharClasses}
    {classify : Classifier} (agree : ScopesAgree first second) :
    SameResults view chars classify first second := by
  refine fun index plain maxSearchResults maxResults =>
    ⟨fun target => ?_, fun query path line => ?_⟩
  · simp only [RetrievalView.executeIndexSearch, RetrievalView.resultLimits]
    rw [agree.search { view with index, maxSearchResults } plain]
  · exact agree.fallback plain chars classify ws.id view.snapshotId maxResults query path line

end

def crowdedFile (path : Text) : FileEntry where
  path
  content := (List.replicate 9 "a\nb\n".toList).flatten
  hash := []
  symbols := []
  size := 36
  modifiedNs := 0

def crowdedQuery : TextQuery := ⟨['a'], .literal, true, 0⟩

def crowdedIndex (ws : Workspace) (path : Text) : CodeIndex := .insert ws .empty (crowdedFile path)

theorem entries_crowdedIndex (ws : Workspace) (path : Text) :
    (crowdedIndex ws path).entries = [crowdedFile path] := by
  simp [crowdedIndex, CodeIndex.entries, CodeIndex.insert, CodeIndex.remove, CodeIndex.empty]

theorem plainlyKeyed_crowdedIndex (ws : Workspace) {key : List Text} (plain : PlainPath key)
    (named : key ≠ []) : (crowdedIndex ws (joinSegments key)).PlainlyKeyed := by
  intro path file found
  rw [crowdedIndex, CodeIndex.lookup_insert] at found
  split at found
  · next same => exact ⟨key, plain, named, same⟩
  · cases found

theorem length_windows_crowdedFile (path : Text) :
    ((LineMatcher.exact ['a']).windows (crowdedFile path) 0).length = 9 := by
  change ((LineMatcher.exact ['a']).windows (crowdedFile []) 0).length = 9
  decide +kernel

theorem mayMatch_crowdedFile (path : Text) :
    (LineMatcher.exact ['a']).mayMatch (crowdedFile path) = true := rfl

instance (filters : List Text) : Decidable (OneNamed filters) :=
  inferInstanceAs (Decidable (_ = _))

theorem FileGroups.truncated_single {T W : Type} (windows : List W) (perFileLimit limit : Nat)
    (render : W → T) :
    (((new : FileGroups T).pushFile windows perFileLimit render).interleave limit).truncated =
      decide (min limit (min perFileLimit windows.length) < windows.length) := by
  have shown : (((new : FileGroups T).pushFile windows perFileLimit render).groups.flatten).length =
      min perFileLimit windows.length := by
    simp only [pushFile, new]
    split
    · next none =>
      have empty := congrArg List.length (List.isEmpty_iff.mp none)
      rw [List.length_map, List.length_take] at empty
      simpa using empty.symm
    · simp
  simp only [interleave, RoundRobin.interleave_length, shown]
  simp [pushFile, new]

theorem searchText_crowdedIndex {ws : Workspace} (encoder : HandleEncoder ws)
    (engine : RegexEngine) (workspaceId : Text) (snapshotId : SnapshotId) {filters : List Text}
    {path : Text} (allowed : (PathFilterSet.new filters).allows path = true) :
    ∃ response, (crowdedIndex ws path).searchText encoder engine
        ⟨workspaceId, snapshotId, filters, 9⟩ crowdedQuery = .ok response ∧
      response.truncated = decide ¬OneNamed filters := by
  have files : sortByPath (((crowdedIndex ws path).entries.filter fun file =>
      (PathFilterSet.new filters).allows file.path).filter
        (LineMatcher.exact ['a']).mayMatch) = [crowdedFile path] := by
    have own : (PathFilterSet.new filters).allows (crowdedFile path).path = true := allowed
    simp only [entries_crowdedIndex, List.filter_cons, own, mayMatch_crowdedFile, if_true,
      List.filter_nil]
    exact List.mergeSort_singleton _
  have made : LineMatcher.new engine crowdedQuery = .ok (.exact ['a']) := rfl
  rw [CodeIndex.searchText, if_neg (by decide), made]
  refine ⟨_, rfl, ?_⟩
  dsimp only
  rw [files, List.foldl_cons, List.foldl_nil, FileGroups.truncated_single]
  have windows : ((LineMatcher.exact ['a']).windows (crowdedFile path)
      crowdedQuery.contextLines).length = 9 := length_windows_crowdedFile path
  have limit : SearchScope.limit ⟨workspaceId, snapshotId, filters, 9⟩ = 9 := rfl
  rw [windows, limit]
  refine decide_eq_decide.mpr ?_
  rw [← oneNamed_iff]
  by_cases single : (PathFilterSet.new filters).normalized.length = 1
  · simp [single]
  · simp [single, textWindowsPerFile]

theorem truncated_executeIndexSearch {ws : Workspace} {view : RetrievalView ws}
    {request : SearchRequest} {response : TextResponse} {answer : Value}
    (found : view.search request (view.resultLimits request).applied = .ok response.json)
    (answered : view.executeIndexSearch request = .ok answer) :
    answer.get "truncated" = some (.bool response.truncated) := by
  simp only [RetrievalView.executeIndexSearch, found, bind, Except.bind, Except.ok.injEq]
    at answered
  rw [← answered, ResultLimits.addTo]
  split
  · rw [Value.get_insert_of_ne (by decide), Value.get_insert_of_ne (by decide),
      Value.get_insert_of_ne (by decide)]
    rfl
  · rw [Value.get_insert_of_ne (by decide), Value.get_insert_of_ne (by decide)]
    rfl

theorem executeIndexSearch_crowdedIndex {ws : Workspace} (view : RetrievalView ws)
    {filters : List Text} {path : Text}
    (allowed : (PathFilterSet.new filters).allows path = true) :
    ∃ answer, { view with index := crowdedIndex ws path, maxSearchResults := 9 }.executeIndexSearch
        ⟨.text crowdedQuery, filters, 9⟩ = .ok answer ∧
      answer.get "truncated" = some (.bool (decide ¬OneNamed filters)) := by
  obtain ⟨response, ok, said⟩ := searchText_crowdedIndex view.encoder view.engine.toRegexEngine
    ws.id view.snapshotId allowed
  have found : { view with index := crowdedIndex ws path, maxSearchResults := 9 }.search
      ⟨.text crowdedQuery, filters, 9⟩ 9 = .ok response.json := congrArg (Except.map _) ok
  have answered : ∃ answer, { view with
      index := crowdedIndex ws path, maxSearchResults := 9 }.executeIndexSearch
        ⟨.text crowdedQuery, filters, 9⟩ = .ok answer := by
    simp only [RetrievalView.executeIndexSearch]
    exact ⟨_, congrArg (Except.bind · _) found⟩
  obtain ⟨answer, answered⟩ := answered
  refine ⟨answer, answered, ?_⟩
  rw [truncated_executeIndexSearch found answered, said]

theorem SameResults.single {ws : Workspace} {view : RetrievalView ws} {chars : CharClasses}
    {classify : Classifier} {first second : List Text}
    (same : SameResults view chars classify first second) {key : List Text}
    (plain : PlainPath key) (named : key ≠ [])
    (allowed : (PathFilterSet.new first).allows (joinSegments key) = true)
    (allowed' : (PathFilterSet.new second).allows (joinSegments key) = true) :
    OneNamed first ↔ OneNamed second := by
  have alike := (same (crowdedIndex ws (joinSegments key))
    (plainlyKeyed_crowdedIndex ws plain named) 9 9).1 (.text crowdedQuery)
  obtain ⟨answer, ok, said⟩ := executeIndexSearch_crowdedIndex view allowed
  obtain ⟨answer', ok', said'⟩ := executeIndexSearch_crowdedIndex view allowed'
  rw [ok, ok'] at alike
  cases alike
  rw [said] at said'
  simpa [not_iff_not] using said'

/-- For any filters without `..` and any file, the filters treat the file as their scope means
just where a filter above it, if there is one, selects it by its text, or where all are blank.
For two inputs that spell one scope, both select the files below it and every search answers
alike just where both are spelled plainly and both or neither has just one filter not blank. -/
theorem scopes_exact_iff {ws : Workspace} (view : RetrievalView ws) (chars : CharClasses)
    (classify : Classifier) (first second : RetrievalOperationInput)
    (inside : ∀ filter ∈ first.scopePaths ++ second.scopePaths,
      parentName ∉ scopeComponents filter)
    (same : SameScope first.scopePaths second.scopePaths) :
    (∀ key, PlainPath key → key ≠ [] →
      (((PathFilterSet.new first.scopePaths).allows (joinSegments key) = true ↔
          ScopeCovers first.scopePaths key) ↔
        (ScopeCovers first.scopePaths key → Blank first.scopePaths ∨
          ∃ filter ∈ first.scopePaths, Selects filter key))) ∧
    (ScopeExact first.scopePaths ∧ ScopeExact second.scopePaths ∧
        SameResults view chars classify first.scopePaths second.scopePaths ↔
      SpelledPlainly first.scopePaths ∧ SpelledPlainly second.scopePaths ∧
        (OneNamed first.scopePaths ↔ OneNamed second.scopePaths)) := by
  refine ⟨fun key plain named => allows_iff_scopeCovers plain named, ?_⟩
  have precise_first := scopeExact_iff fun filter mem =>
    inside filter (List.mem_append_left _ mem)
  have precise_second := scopeExact_iff fun filter mem =>
    inside filter (List.mem_append_right _ mem)
  rw [precise_first, precise_second]
  constructor
  · rintro ⟨spelled, spelled', alike⟩
    refine ⟨spelled, spelled', ?_⟩
    rcases spelled.blank_or with blank | ⟨top, among, plainly⟩
    · rw [iff_false_left blank.not_oneNamed]
      exact (same.blank spelled' blank).not_oneNamed
    · have plain := plainPath_scopeComponents (inside top (List.mem_append_left _ among))
      have selects := plainly.selects List.prefix_rfl
      have covered := (same _ plain plainly.1).mp (.inr ⟨top, among, List.prefix_rfl⟩)
      exact alike.single plain plainly.1
        ((allows_plain plain plainly.1).mpr (.inr ⟨top, among, selects⟩))
        ((precise_second.mpr spelled' _ plain plainly.1).mpr covered)
  · rintro ⟨spelled, spelled', single⟩
    refine ⟨spelled, spelled', ?_⟩
    exact (same.agree spelled spelled' (precise_first.mpr spelled) (precise_second.mpr spelled')
      single).sameResults

namespace Sample

def slashed : RetrievalOperationInput := ⟨some "src".toList, none⟩

def backslashed : RetrievalOperationInput := ⟨some ".\\src".toList, some [".\\src".toList]⟩

theorem spelledPlainly_single {filter : Text} (plain : PlainlySpelled filter) :
    SpelledPlainly [filter] :=
  .inr fun other mem => ⟨filter, List.mem_cons_self, plain, by rw [List.mem_singleton.mp mem]⟩

end Sample

open Sample in
theorem scopes_exact_iff_backslashed :
    ScopeExact slashed.scopePaths ∧ ScopeExact backslashed.scopePaths ∧
      SameResults twiceView letters declaresFirst slashed.scopePaths backslashed.scopePaths := by
  have there : backslashed.scopePaths = [".\\src".toList] := by decide
  have single : SpelledPlainly backslashed.scopePaths := by
    rw [there]
    exact spelledPlainly_single ⟨by decide, by decide⟩
  exact (scopes_exact_iff twiceView letters declaresFirst slashed backslashed (by decide)
    (SameScope.of_components (by decide))).2.mpr
      ⟨spelledPlainly_single ⟨by decide, by decide⟩, single, by decide⟩

/-- The root has every file below it, and selects none as `.`. -/
theorem dot_selects_none : ¬((PathFilterSet.new [".".toList]).allows (joinSegments ["a".toList]) =
    true ↔ ScopeCovers [".".toList] ["a".toList]) := by
  have refused : (PathFilterSet.new [".".toList]).allows (joinSegments ["a".toList]) = false := by
    decide
  have covered : ScopeCovers [".".toList] ["a".toList] :=
    .inr ⟨".".toList, List.mem_cons_self, List.nil_prefix⟩
  rw [refused]
  exact fun alike => absurd (alike.mpr covered) (by decide)

end CodeWeave
