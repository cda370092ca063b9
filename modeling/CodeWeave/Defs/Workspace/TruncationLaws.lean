import CodeWeave.Defs.Index.Representation
import CodeWeave.Defs.Index.SearchLaws
import CodeWeave.Defs.Workspace.FetchLaws
import CodeWeave.Defs.Workspace.Retrieval

namespace CodeWeave

open Cuts

/-! ### Results, and what they say -/

namespace Value

def listAt (name : String) (result : Value) : List Value := (result.field name).asArray.getD []

def items (result : Value) : List Value :=
  result.listAt "results" ++ result.listAt "directories" ++ result.listAt "imports"

def shown (result : Value) : Text := (result.field "content").asStr.getD []

def countFiles : List Value → Int
  | [] => 0
  | directory :: rest => (directory.field "files").asInt.getD 0 + countFiles rest

end Value

def LeavesOut (result whole : Value) : Prop :=
  ¬whole.items.Subperm result.items ∨ ¬whole.shown <+: result.shown

inductive SaysTruncated (result : Value) : Prop
  | flag (set : result.get "truncated" = some (.bool true))
  | continued (more : result.field "continuation" ≠ .null)
  | chars {offset total : Nat} (start : result.get "offset" = some (.number offset))
      (counted : result.get "total_chars" = some (.number total))
      (exceeds : offset + utf8Count result.shown < total)
  | files {total : Nat} (counted : result.get "file_count" = some (.number total))
      (exceeds : Value.countFiles (result.listAt "directories") < total)

def CodeIndex.declarationsNamed (index : CodeIndex) (paths : List Text) (name : Text) :
    List (FileEntry × Symbol) :=
  ((index.symbolIndex.keys.filter fun declared =>
    asciiLower name <:+: asciiLower declared).flatMap index.indexedSymbols).filter fun found =>
      (PathFilterSet.new paths).allows found.1.path

namespace RetrievalView

variable {ws : Workspace} (view : RetrievalView ws)

/-- An operation with another limit in place of its own, that nothing clamps. -/
def executeLimited (limit : Nat) : PreparedRetrievalOperation → AppResult Value
  | .search request => view.search request limit
  | .read operation => view.executeRead operation limit

/-- What an operation leaves out of what it returns with another limit, its result admits. -/
def NeverSilent (operation : PreparedRetrievalOperation) : Prop :=
  ∀ result, view.executeRetrievalOperation operation = .ok result →
    ∀ limit whole, view.executeLimited limit operation = .ok whole →
      LeavesOut result whole → SaysTruncated result

inductive Reads : RetrievalTarget → Text → Text → Prop
  | file {target : ReadTarget} {file : FileEntry} {scope : FetchScope} {offset : Nat}
      {before after : Text} (serves : Serves ws view.codec view.index target file scope offset)
      (parts : (scope.select file).1 = before ++ after)
      (start : before = takeBytes (scope.select file).1 offset) : Reads (.file target) before after
  | symbol {name : Text} {path : Option Text} {contextLines : Nat} {includeImports : Bool}
      {file : FileEntry} {symbol : Symbol}
      (declared : view.declaredSymbol name path = .ok (file, symbol)) :
      Reads (.symbol name path contextLines includeImports) []
        ((surroundedScope file symbol contextLines).select file).1
  | bashLog {value content : Text} (read : view.readOutput (logId value) = .ok content) :
      Reads (.bashLog value) [] content

/-- A search for symbols and a compact read have to return all there is. -/
def NothingCut : PreparedRetrievalOperation → Prop
  | .search request =>
    match request.target with
    | .symbol query => (view.index.declarationsNamed request.paths query.name).length ≤
        max (min (min request.maxResults protocolMaxResults) view.maxSearchResults) 1
    | _ => True
  | .read operation => operation.compact = true → ∀ before after,
      view.Reads operation.target before after → utf8Count after ≤ operation.maxChars

end RetrievalView

namespace Value

variable {result found : Value}

theorem items_results {values : List Value} (results : result.get "results" = some (.list values))
    (directories : result.get "directories" = none) (imports : result.get "imports" = none) :
    result.items = values := by
  simp only [items, listAt, field, results, directories, imports, list, asArray, Option.getD,
    Items.toList_ofList, List.append_nil]

theorem items_congr (same : ∀ key ∈ ["results", "directories", "imports"],
    result.get key = found.get key) : result.items = found.items := by
  simp only [List.forall_mem_cons] at same
  simp only [items, listAt, field, same]

end Value

theorem not_leavesOut {found whole : Value} (items : whole.items.Subperm found.items)
    (shown : whole.shown = []) : ¬LeavesOut found whole := by
  rintro (missing | missing)
  · exact missing items
  · rw [shown] at missing
    exact missing List.nil_prefix

theorem subperm_map {A B : Type} (f : A → B) {first second : List A}
    (sub : first.Subperm second) : (first.map f).Subperm (second.map f) := by
  obtain ⟨middle, perm, sublist⟩ := sub
  exact ⟨middle.map f, perm.map f, sublist.map f⟩

theorem exists_of_map_eq_ok {A B : Type} {x : AppResult A} {f : A → B} {b : B}
    (mapped : x.map f = .ok b) : ∃ a, x = .ok a ∧ f a = b := by
  cases x with
  | error => cases mapped
  | ok a => exact ⟨a, rfl, Except.ok.inj mapped⟩

theorem subperm_map_take {A : Type} (render : A → Value) {items : List A} {few : Nat}
    (all : items.length ≤ few) (many : Nat) :
    ((items.take many).map render).Subperm ((items.take few).map render) := by
  rw [List.take_of_length_le all]
  exact ((List.take_sublist many items).map render).subperm

/-! ### Searches -/

def addedFields : List String := ["reconcile_pending", "limits", "warnings"]

theorem ResultLimits.get_addTo (limits : ResultLimits) (found pending : Value) {key : String}
    (own : key ∉ addedFields) :
    (limits.addTo (found.insert "reconcile_pending" pending)).get key = found.get key := by
  simp only [addedFields, List.mem_cons, List.not_mem_nil, or_false, not_or] at own
  obtain ⟨first, second, third⟩ := own
  rw [addTo]
  split
  · rw [Value.get_insert_of_ne third, Value.get_insert_of_ne second, Value.get_insert_of_ne first]
  · rw [Value.get_insert_of_ne second, Value.get_insert_of_ne first]

section

variable {result found whole : Value}
  (same : ∀ key, key ∉ addedFields → result.get key = found.get key)

include same

theorem leavesOut_congr : LeavesOut result whole ↔ LeavesOut found whole := by
  have items : result.items = found.items :=
    Value.items_congr fun key among => same key (by revert key; decide)
  have shown : result.shown = found.shown := by
    rw [Value.shown, Value.shown, Value.field, Value.field, same "content" (by decide)]
  rw [LeavesOut, LeavesOut, items, shown]

theorem SaysTruncated.congr (admits : SaysTruncated found) : SaysTruncated result := by
  cases admits with
  | flag set => exact .flag ((same _ (by decide)).trans set)
  | continued more =>
    rw [Value.field, ← same _ (by decide)] at more
    exact .continued more
  | chars start counted exceeds =>
    rw [Value.shown, Value.field, ← same _ (by decide)] at exceeds
    exact .chars ((same _ (by decide)).trans start) ((same _ (by decide)).trans counted) exceeds
  | files counted exceeds =>
    rw [Value.listAt, Value.field, ← same _ (by decide)] at exceeds
    exact .files ((same _ (by decide)).trans counted) exceeds

end

namespace RetrievalView

variable {ws : Workspace} {view : RetrievalView ws}

theorem neverSilent_search_iff (request : SearchRequest) :
    view.NeverSilent (.search request) ↔
      ∀ found, view.search request (view.resultLimits request).applied = .ok found →
        ∀ limit whole, view.search request limit = .ok whole →
          LeavesOut found whole → SaysTruncated found := by
  constructor
  · intro never found searched limit whole there leaves
    have executed : view.executeRetrievalOperation (.search request) =
        .ok ((view.resultLimits request).addTo
          (found.insert "reconcile_pending" (.bool view.reconcilePending))) := by
      simp only [executeRetrievalOperation, executeIndexSearch, searched, bind, Except.bind]
    have same (key : String) (own : key ∉ addedFields) :=
      ((view.resultLimits request).get_addTo found (.bool view.reconcilePending) own)
    exact SaysTruncated.congr (fun key own => (same key own).symm)
      (never _ executed limit whole there ((leavesOut_congr same).mpr leaves))
  · intro never result executed limit whole there leaves
    simp only [executeRetrievalOperation, executeIndexSearch, bind_eq_ok] at executed
    obtain ⟨found, searched, done⟩ := executed
    cases done
    have same (key : String) (own : key ∉ addedFields) :=
      ((view.resultLimits request).get_addTo found (.bool view.reconcilePending) own)
    exact SaysTruncated.congr same
      (never found searched limit whole there ((leavesOut_congr same).mp leaves))

end RetrievalView

namespace CodeIndex

variable {ws : Workspace} {index : CodeIndex} {encoder : HandleEncoder ws} {engine : GlobEngine}
  {scope : SearchScope} {limit : Nat}

theorem searchText_admits {query : TextQuery} {response whole : TextResponse}
    (ok : index.searchText encoder engine.toRegexEngine scope query = .ok response)
    (there : index.searchText encoder engine.toRegexEngine { scope with maxResults := limit }
      query = .ok whole)
    (leaves : LeavesOut response.json whole.json) : SaysTruncated response.json := by
  obtain ⟨matcher, chosen, made, results, sub, truncated⟩ := searchText_chosen ok
  obtain ⟨_, others, made', results', sub', -⟩ := searchText_chosen there
  obtain rfl := Except.ok.inj (made.symm.trans made')
  by_cases cut : response.truncated = true
  · exact .flag (congrArg (fun flag => some (Value.bool flag)) cut)
  · refine absurd leaves (not_leavesOut ?_ rfl)
    have all : chosen.Perm (windowsOf (fun file => matcher.windows file query.contextLines)
        (index.searched scope matcher)) :=
      sub.perm_of_length_le (Nat.not_lt.mp fun few => cut (truncated.mpr few))
    rw [Value.items_results rfl rfl rfl, Value.items_results rfl rfl rfl, results, results',
      List.map_map, List.map_map]
    exact subperm_map _ (sub'.trans all.symm.subperm)

theorem searchFilenames_admits {query : FilenameQuery} {found whole : Value}
    (ok : index.searchFilenames engine scope query = .ok found)
    (there : index.searchFilenames engine { scope with maxResults := limit } query = .ok whole)
    (leaves : LeavesOut found whole) : SaysTruncated found := by
  simp only [searchFilenames, bind_eq_ok] at ok there
  obtain ⟨matcher, made, ok⟩ := ok
  obtain ⟨_, made', there⟩ := there
  obtain rfl := Except.ok.inj (made.symm.trans made')
  cases ok
  cases there
  by_cases all : ((sortByPath ((index.entries.filter fun file =>
      (PathFilterSet.new scope.paths).allows file.path).filter matcher.isMatch)).map
        FileEntry.path).length ≤ scope.limit
  · refine absurd leaves (not_leavesOut ?_ rfl)
    rw [Value.items_results rfl rfl rfl, Value.items_results rfl rfl rfl]
    exact subperm_map_take _ all _
  · refine .flag (congrArg (fun flag => some (Value.bool flag)) (decide_eq_true ?_))
    simp only [List.length_map, List.length_take] at all ⊢
    omega

theorem length_symbolMatches (index : CodeIndex) (scope : SearchScope) (query : SymbolQuery) :
    (index.symbolMatches scope query).length =
      (index.declarationsNamed scope.paths query.name).length := by
  rw [symbolMatches, declarationsNamed]
  induction index.symbolIndex.keys with
  | nil => rfl
  | cons name rest ih =>
    rw [List.flatMap_cons, List.length_append, ih, List.filter_cons]
    by_cases contains : asciiLower query.name <:+: asciiLower name
    · obtain ⟨rank, ranked⟩ : ∃ rank,
          symbolRank (asciiLower name) (asciiLower query.name) = some rank := by
        simp only [symbolRank, contains, not_true_eq_false, if_false]
        split
        · exact ⟨_, rfl⟩
        · split <;> exact ⟨_, rfl⟩
      rw [ranked, if_pos (decide_eq_true contains), List.flatMap_cons, List.filter_append,
        List.length_append, List.length_map]
    · have none : symbolRank (asciiLower name) (asciiLower query.name) = none := if_pos contains
      rw [none, if_neg (by simpa using contains), List.length_nil, Nat.zero_add]

theorem searchSymbols_admits_iff {query : SymbolQuery} :
    (∀ limit, LeavesOut (index.searchSymbols encoder scope query)
      (index.searchSymbols encoder { scope with maxResults := limit } query) →
        SaysTruncated (index.searchSymbols encoder scope query)) ↔
      (index.declarationsNamed scope.paths query.name).length ≤ scope.limit := by
  have same (limit : Nat) : index.symbolMatches { scope with maxResults := limit } query =
      index.symbolMatches scope query := rfl
  have length : ((index.symbolMatches scope query).mergeSort symbolMatchBefore).length =
      (index.declarationsNamed scope.paths query.name).length := by
    rw [List.length_mergeSort, length_symbolMatches]
  constructor
  · intro admits
    by_contra more
    have leaves : LeavesOut (index.searchSymbols encoder scope query) (index.searchSymbols encoder
        { scope with maxResults := (index.declarationsNamed scope.paths query.name).length }
        query) := by
      refine .inl fun sub => more ?_
      have fewer := sub.length_le
      rw [Value.items_results rfl rfl rfl, Value.items_results rfl rfl rfl, List.length_map,
        List.length_map, List.length_take, List.length_take, same, length] at fewer
      have large := Nat.le_max_left (index.declarationsNamed scope.paths query.name).length 1
      exact (Nat.le_min.mpr ⟨large, Nat.le_refl _⟩).trans (fewer.trans (Nat.min_le_left ..))
    cases admits _ leaves with
    | flag set => cases set
    | continued more => exact more rfl
    | chars start => cases start
    | files counted => cases counted
  · intro all limit leaves
    refine absurd leaves (not_leavesOut ?_ rfl)
    rw [Value.items_results rfl rfl rfl, Value.items_results rfl rfl rfl, same]
    exact subperm_map_take _ (length.trans_le all) _

def inScope (index : CodeIndex) (scope : SearchScope) : List FileEntry :=
  index.entries.filter fun file => (PathFilterSet.new scope.paths).allows file.path

def directories (index : CodeIndex) (scope : SearchScope) : List Text :=
  ((index.inScope scope).map fun file => directoryOf file.path).dedup.mergeSort
    fun left right => decide (left ≤ right)

def filesIn (files : List FileEntry) (directory : Text) : List FileEntry :=
  files.filter fun file => directoryOf file.path = directory

def directoryEntry (files : List FileEntry) (path : Text) : Value :=
  json [("path", .string path), ("files", .number (filesIn files path).length),
    ("languages", .list ((((filesIn files path).map fun file =>
      file.language.toList).dedup.mergeSort fun left right => decide (left ≤ right)).map .string))]

theorem listAt_repoMap (index : CodeIndex) (scope : SearchScope) :
    (index.repoMap scope).listAt "directories" =
      ((index.directories scope).take scope.limit).map (directoryEntry (index.inScope scope)) :=
  Items.toList_ofList _

theorem nodup_directories (index : CodeIndex) (scope : SearchScope) :
    (index.directories scope).Nodup :=
  (List.mergeSort_perm _ _).nodup_iff.mpr (List.nodup_dedup _)

theorem mem_directories {directory : Text} : directory ∈ index.directories scope ↔
    ∃ file ∈ index.inScope scope, directoryOf file.path = directory := by
  rw [directories, List.mem_mergeSort, List.mem_dedup, List.mem_map]

theorem countP_directories (files : List FileEntry) {directory : Text} {rest : List Text}
    (new : directory ∉ rest) :
    files.countP (fun file => directoryOf file.path ∈ directory :: rest) =
      files.countP (fun file => directoryOf file.path = directory) +
        files.countP (fun file => directoryOf file.path ∈ rest) := by
  induction files with
  | nil => rfl
  | cons file files ih =>
    rw [List.countP_cons, List.countP_cons, List.countP_cons, ih]
    by_cases same : directoryOf file.path = directory
    · simp only [same, List.mem_cons_self, new, decide_true, decide_false, if_true,
        Bool.false_eq_true, if_false]
      omega
    · simp only [List.mem_cons, same, false_or, decide_false, Bool.false_eq_true, if_false]
      omega

theorem countFiles_map (files : List FileEntry) {listed : List Text} (distinct : listed.Nodup) :
    Value.countFiles (listed.map (directoryEntry files)) =
      ((files.countP fun file => directoryOf file.path ∈ listed : Nat) : Int) := by
  induction listed with
  | nil =>
    simp only [List.not_mem_nil, decide_false, List.countP_false]
    rfl
  | cons directory rest ih =>
    obtain ⟨new, distinct⟩ := List.nodup_cons.mp distinct
    have here : ((directoryEntry files directory).field "files").asInt.getD 0 =
        ((files.countP fun file => directoryOf file.path = directory : Nat) : Int) := by
      rw [List.countP_eq_length_filter]
      rfl
    rw [List.map_cons, Value.countFiles, ih distinct, here, countP_directories files new,
      Int.natCast_add]

theorem repoMap_admits (leaves : LeavesOut (index.repoMap scope)
    (index.repoMap { scope with maxResults := limit })) : SaysTruncated (index.repoMap scope) := by
  by_cases all : (index.directories scope).length ≤ scope.limit
  · refine absurd leaves (not_leavesOut ?_ rfl)
    have only (scope : SearchScope) :
        (index.repoMap scope).items = (index.repoMap scope).listAt "directories" :=
      List.append_nil _
    rw [only, only, listAt_repoMap, listAt_repoMap]
    exact subperm_map_take _ all _
  · have left : (index.directories scope).drop scope.limit ≠ [] := by
      rw [ne_eq, List.drop_eq_nil_iff]
      exact all
    obtain ⟨directory, more, dropped⟩ := List.exists_cons_of_ne_nil left
    have parts := List.take_append_drop scope.limit (index.directories scope)
    have distinct := index.nodup_directories scope
    rw [← parts, dropped] at distinct
    have among : directory ∈ index.directories scope := by
      rw [← parts, dropped]
      exact List.mem_append_right _ List.mem_cons_self
    obtain ⟨file, mem, own⟩ := mem_directories.mp among
    have apart : directory ∉ (index.directories scope).take scope.limit := fun first =>
      (List.nodup_append.mp distinct).2.2 _ first _ List.mem_cons_self rfl
    refine @SaysTruncated.files _ (index.inScope scope).length rfl ?_
    rw [listAt_repoMap, countFiles_map _ (List.nodup_append.mp distinct).1, Int.ofNat_lt,
      List.countP_lt_length_iff]
    exact ⟨file, mem, decide_eq_false (own ▸ apart)⟩

end CodeIndex

namespace RetrievalView

variable {ws : Workspace} {view : RetrievalView ws}

theorem search_admits_iff (request : SearchRequest) :
    (∀ found, view.search request (view.resultLimits request).applied = .ok found →
      ∀ limit whole, view.search request limit = .ok whole →
        LeavesOut found whole → SaysTruncated found) ↔ view.NothingCut (.search request) := by
  obtain ⟨target, paths, maxResults⟩ := request
  cases target with
  | text query =>
    refine iff_of_true (fun found searched limit whole there leaves => ?_) trivial
    obtain ⟨response, ok, rfl⟩ := exists_of_map_eq_ok searched
    obtain ⟨other, ok', rfl⟩ := exists_of_map_eq_ok there
    exact CodeIndex.searchText_admits ok ok' leaves
  | filename query =>
    exact iff_of_true (fun found searched limit whole there leaves =>
      CodeIndex.searchFilenames_admits searched there leaves) trivial
  | repoMap =>
    refine iff_of_true (fun found searched limit whole there leaves => ?_) trivial
    cases searched
    cases there
    exact CodeIndex.repoMap_admits leaves
  | symbol query =>
    refine Iff.trans ⟨fun admits limit leaves => admits _ rfl limit _ rfl leaves, ?_⟩
      CodeIndex.searchSymbols_admits_iff
    intro admits found searched limit whole there leaves
    cases searched
    cases there
    exact admits limit leaves

end RetrievalView

/-! ### Reads -/

structure Pages (before after : Text) (limit : Nat) (imports : Option Value) (result : Value) :
    Prop where
  content : result.get "content" = some (.string (fit Char.utf8Size limit after))
  offset : result.get "offset" = some (.number (utf8Count before))
  total : result.get "total_chars" = some (.number (utf8Count (before ++ after)))
  imports : result.get "imports" = imports
  results : result.get "results" = none
  directories : result.get "directories" = none

theorem get_compactFetchResult (result : Value) (key : String) :
    (compactFetchResult result).get key = if key ∈ compactFields then result.get key else none := by
  have kept (names : List String) : (json (names.filterMap fun field =>
      (result.get field).map fun value => (field, value))).get key =
        if key ∈ names then result.get key else none := by
    induction names with
    | nil => rfl
    | cons name rest ih =>
      cases found : result.get name with
      | none =>
        rw [List.filterMap_cons, found, Option.map_none, ih]
        by_cases same : key = name
        · rw [same, found, ite_self, ite_self]
        · exact if_congr (by rw [List.mem_cons, or_iff_right same]) rfl rfl
      | some value =>
        rw [List.filterMap_cons, found, Option.map_some]
        by_cases same : name = key
        · rw [if_pos (same ▸ List.mem_cons_self), ← same, found]
          exact if_pos rfl
        · refine (if_neg same).trans (ih.trans (if_congr ?_ rfl rfl))
          rw [List.mem_cons, or_iff_right (Ne.symm same)]
  exact kept compactFields

theorem not_saysTruncated_compact (result : Value) :
    ¬SaysTruncated (compactFetchResult result) := by
  have gone {key : String} (other : key ∉ compactFields) :
      (compactFetchResult result).get key = none :=
    (get_compactFetchResult result key).trans (if_neg other)
  intro admits
  cases admits with
  | flag set => cases (gone (by decide)).symm.trans set
  | continued more => exact more (congrArg (fun value => value.getD Value.null) (gone (by decide)))
  | chars start => cases (gone (by decide)).symm.trans start
  | files counted => cases (gone (by decide)).symm.trans counted

namespace Pages

variable {before after : Text} {limit more : Nat} {imports : Option Value} {result whole : Value}

theorem shown_eq (page : Pages before after limit imports result) :
    result.shown = fit Char.utf8Size limit after := by
  rw [Value.shown, Value.field, page.content]
  rfl

theorem items_eq (page : Pages before after limit imports result) :
    result.items = ((imports.getD .null).asArray).getD [] := by
  simp only [Value.items, Value.listAt, Value.field, page.results, page.directories, page.imports]
  rfl

theorem compact (page : Pages before after limit imports result) :
    (compactFetchResult result).shown = result.shown ∧
      (compactFetchResult result).items = result.items := by
  constructor
  · rw [Value.shown, Value.shown, Value.field, Value.field, get_compactFetchResult,
      if_pos (by decide)]
  · refine Value.items_congr ?_
    simp only [List.forall_mem_cons, List.not_mem_nil, false_imp_iff, implies_true, and_true,
      get_compactFetchResult, page.results, page.directories, ite_self, true_and]
    exact if_pos (by decide)

theorem leavesOut_iff (page : Pages before after limit imports result)
    (other : Pages before after more imports whole) : LeavesOut result whole ↔
      ¬fit Char.utf8Size more after <+: fit Char.utf8Size limit after := by
  rw [LeavesOut, page.shown_eq, other.shown_eq, page.items_eq, other.items_eq, or_iff_right]
  exact not_not.mpr (List.Subperm.refl _)

theorem compact_leavesOut_iff (page : Pages before after limit imports result)
    (other : Pages before after more imports whole) :
    LeavesOut (compactFetchResult result) (compactFetchResult whole) ↔ LeavesOut result whole := by
  rw [LeavesOut, LeavesOut, page.compact.1, page.compact.2, other.compact.1, other.compact.2]

theorem lt_of_leavesOut (page : Pages before after limit imports result)
    (other : Pages before after more imports whole) (leaves : LeavesOut result whole) :
    limit < utf8Count after := by
  by_contra within
  refine (page.leavesOut_iff other).mp leaves ?_
  rw [fit_eq_self ((utf8Count_eq after).symm.trans_le (Nat.not_lt.mp within))]
  exact prefixed_fit more after

theorem leavesOut_of_lt (page : Pages before after limit imports result)
    (other : Pages before after (utf8Count after) imports whole) (goes : limit < utf8Count after) :
    LeavesOut result whole := by
  rw [page.leavesOut_iff other, fit_eq_self (utf8Count_eq after).ge]
  rintro ⟨beyond, all⟩
  have within := @total_fit_le _ Char.utf8Size limit after
  have parts := congrArg (Cuts.total Char.utf8Size) all
  rw [total_append, ← utf8Count_eq after] at parts
  omega

theorem saysTruncated (page : Pages before after limit imports result)
    (goes : limit < utf8Count after) : SaysTruncated result := by
  refine .chars page.offset page.total ?_
  have within := @total_fit_le _ Char.utf8Size limit after
  rw [page.shown_eq, utf8Count_append, utf8Count_eq (fit _ _ _)]
  omega

end Pages

theorem takeBytes_zero (text : Text) : takeBytes text 0 = [] :=
  takeBytes_append [] text

theorem boundedContent_parts (base : FetchResponse) {content before after : Text} {offset : Nat}
    (parts : content = before ++ after) (start : before = takeBytes content offset) (limit : Nat)
    (continuation : Nat → Text) :
    boundedContent base content offset limit continuation =
      boundedContent base (before ++ after) (utf8Count before) limit continuation := by
  have floor : floorCharBoundary content offset = floorCharBoundary content (utf8Count before) := by
    rw [floorCharBoundary, floorCharBoundary, ← start, parts, takeBytes_append]
  rw [← parts, boundedContent, boundedContent, floor]

variable {ws : Workspace} {codec : FetchContinuationCodec} {encoder : HandleEncoder ws}

theorem pages_json {file : FileEntry} {scope : FetchScope} {offset : Nat} {before after : Text}
    (parts : (scope.select file).1 = before ++ after)
    (start : before = takeBytes (scope.select file).1 offset) (limit : Nat)
    {extra : List (String × Value)} (results : (json extra).get "results" = none)
    (directories : (json extra).get "directories" = none) :
    Pages before after limit ((json extra).get "imports")
      (json ((ws.buildFetchResponse codec encoder file scope offset limit).fields ++ extra)) := by
  rw [Workspace.buildFetchResponse]
  dsimp only
  rw [boundedContent_parts _ parts start, boundedContent_eq]
  exact ⟨rfl, rfl, rfl, rfl, results, directories⟩

namespace RetrievalView

variable {view : RetrievalView ws}

theorem Reads.pages {target : RetrievalTarget} {before after : Text}
    (reads : view.Reads target before after) : ∃ imports, ∀ limit, ∃ result,
      view.readTarget limit target = .ok result ∧ Pages before after limit imports result := by
  cases reads with
  | @file target file scope offset _ _ serves parts start =>
    refine ⟨(json []).get "imports", fun limit => ⟨json ((ws.buildFetchResponse view.codec
      view.encoder file scope offset limit).fields ++ []), ?_,
      pages_json parts start limit rfl rfl⟩⟩
    rw [readTarget, readTarget_eq_ok.mpr ⟨file, scope, offset, serves, rfl⟩, List.append_nil]
    rfl
  | @symbol name path contextLines includeImports file symbol declared =>
    refine ⟨_, fun limit => ⟨json ((ws.buildFetchResponse view.codec view.encoder file
      (surroundedScope file symbol contextLines) 0 limit).fields ++ ("symbol", symbol.json) ::
        if includeImports then [("imports", .list (lexicalImportPrelude file
          (max (symbol.startLine - contextLines) 1)))] else []), ?_,
      pages_json rfl (takeBytes_zero _).symm limit ?_ ?_⟩⟩
    · simp only [readTarget, fetchSymbol, declared, bind, Except.bind]
    · cases includeImports <;> rfl
    · cases includeImports <;> rfl
  | @bashLog value _ read =>
    refine ⟨none, fun limit => ⟨json ([("kind", .str "bash_log"),
      ("run_id", .string (logId value))] ++ { boundedContent .blank after 0 limit fun _ => [] with
        continuation := none }.boundedFields), ?_, ?_⟩⟩
    · simp only [readTarget, read, bind, Except.bind]
    · rw [boundedContent_parts .blank (List.nil_append after).symm (takeBytes_zero after).symm,
        boundedContent_eq]
      exact ⟨rfl, rfl, rfl, rfl, rfl, rfl⟩

theorem exists_reads {target : RetrievalTarget} {limit : Nat} {result : Value}
    (ok : view.readTarget limit target = .ok result) :
    ∃ before after, view.Reads target before after := by
  cases target with
  | file target =>
    obtain ⟨response, ok, -⟩ := exists_of_map_eq_ok ok
    obtain ⟨file, scope, offset, serves, -⟩ := readTarget_eq_ok.mp ok
    obtain ⟨after, whole⟩ := takeBytes_eq (scope.select file).1 offset ▸
      prefixed_fit offset (scope.select file).1
    exact ⟨_, after, .file serves whole.symm rfl⟩
  | symbol name path contextLines includeImports =>
    simp only [readTarget, fetchSymbol, bind_eq_ok] at ok
    obtain ⟨⟨file, symbol⟩, declared, -⟩ := ok
    exact ⟨_, _, .symbol declared⟩
  | bashLog value =>
    simp only [readTarget, bind_eq_ok] at ok
    obtain ⟨content, read, -⟩ := ok
    exact ⟨_, _, .bashLog read⟩

theorem neverSilent_read_iff (operation : ReadOperation) :
    view.NeverSilent (.read operation) ↔ view.NothingCut (.read operation) := by
  obtain ⟨target, maxChars, compact⟩ := operation
  constructor
  · intro never isCompact before after reads
    by_contra goes
    obtain ⟨imports, pages⟩ := reads.pages
    obtain ⟨result, ok, page⟩ := pages maxChars
    obtain ⟨whole, there, other⟩ := pages (utf8Count after)
    obtain rfl : compact = true := isCompact
    have leaves := page.leavesOut_of_lt other (Nat.not_le.mp goes)
    refine not_saysTruncated_compact result (never _ ?_ (utf8Count after) _ ?_
      ((page.compact_leavesOut_iff other).mpr leaves))
    · simp only [executeRetrievalOperation, executeRead, ok, bind, Except.bind, if_true]
    · simp only [executeLimited, executeRead, there, bind, Except.bind, if_true]
  · intro uncut result executed limit whole there leaves
    simp only [executeRetrievalOperation, executeLimited, executeRead, bind_eq_ok] at executed there
    obtain ⟨found, ok, viewed⟩ := executed
    obtain ⟨wider, ok', viewed'⟩ := there
    obtain ⟨before, after, reads⟩ := exists_reads ok
    obtain ⟨imports, pages⟩ := reads.pages
    obtain ⟨_, same, page⟩ := pages maxChars
    obtain ⟨_, same', other⟩ := pages limit
    obtain rfl := Except.ok.inj (same.symm.trans ok)
    obtain rfl := Except.ok.inj (same'.symm.trans ok')
    cases compact with
    | true =>
      cases viewed
      cases viewed'
      have goes := page.lt_of_leavesOut other ((page.compact_leavesOut_iff other).mp leaves)
      exact absurd (uncut rfl before after reads) (Nat.not_le.mpr goes)
    | false =>
      cases viewed
      cases viewed'
      exact page.saysTruncated (page.lt_of_leavesOut other leaves)

end RetrievalView

/-- What a retrieval operation leaves out is admitted by its result, exactly when a search for
symbols and a compact read have nothing to leave out. -/
theorem neverSilent_iff {ws : Workspace} (view : RetrievalView ws)
    (operation : PreparedRetrievalOperation) :
    view.NeverSilent operation ↔ view.NothingCut operation := by
  cases operation with
  | search request =>
    exact (RetrievalView.neverSilent_search_iff request).trans
      (RetrievalView.search_admits_iff request)
  | read operation => exact RetrievalView.neverSilent_read_iff operation

namespace Sample

def declaredTwice : Disk := .holding [(["m".toList], "f\n".toList), (["n".toList], "f\n".toList)]

def twiceView : RetrievalView declaring where
  index := ((declaring.scan declaredTwice .calm).toOption).getD .empty
  snapshotId := []
  engine := ⟨⟨fun _ _ => .ok fun _ => false⟩, id⟩
  encoder := handles
  codec := continuations
  runs := ∅
  outputs _ := .new 0
  maxSearchResults := 20
  reconcilePending := false

theorem declared_of_place {path : Text}
    (placed : (path, 0) ∈ (twiceView.index.symbolIndex.lookup "f".toList).getD ∅)
    (shown : ((twiceView.index.lookup path).bind fun file =>
      file.symbols[0]?.map fun symbol => (file, symbol)).any (fun found => found.1.path = path) =
        true) :
    path ∈ (twiceView.index.declarationsNamed [] "f".toList).map fun found => found.1.path := by
  obtain ⟨found, here, own⟩ := (Option.any_eq_true _ _).mp shown
  refine List.mem_map.mpr ⟨found, List.mem_filter.mpr ⟨?_, rfl⟩, of_decide_eq_true own⟩
  have key : "f".toList ∈ twiceView.index.symbolIndex.keys := by decide +kernel
  refine List.mem_flatMap.mpr ⟨_, List.mem_filter.mpr ⟨key, by decide⟩, ?_⟩
  exact List.mem_filterMap.mpr ⟨(path, 0), mem_sortPlaces.mpr placed, here⟩

end Sample

open Sample in
/-- Of two declarations one is returned, and of two bytes one, without a word. -/
theorem silently_truncated :
    ¬twiceView.NeverSilent (.search ⟨.symbol ⟨"f".toList⟩, [], 1⟩) ∧
    ¬twiceView.NeverSilent (.read ⟨.file (.path "n".toList none none), 1, true⟩) := by
  constructor
  · rw [RetrievalView.neverSilent_search_iff, RetrievalView.search_admits_iff]
    intro uncut
    have within : (twiceView.index.declarationsNamed [] "f".toList).length ≤ 1 := uncut
    have both : ["m".toList, "n".toList].Subperm
        ((twiceView.index.declarationsNamed [] "f".toList).map fun found => found.1.path) := by
      refine List.subperm_of_subset (by decide) fun path mem => ?_
      rcases List.mem_pair.mp mem with rfl | rfl
      · exact declared_of_place (by decide +kernel) (by decide +kernel)
      · exact declared_of_place (by decide +kernel) (by decide +kernel)
    have two := both.length_le
    rw [List.length_map] at two
    exact absurd (two.trans within) (by decide)
  · rw [RetrievalView.neverSilent_read_iff]
    intro uncut
    have long : (twiceView.index.get "n".toList).any (fun file => 1 < utf8Count file.content) =
        true := by decide +kernel
    obtain ⟨file, indexed, more⟩ := (Option.any_eq_true _ _).mp long
    have within := uncut rfl [] _ (.file (.addressed (.path indexed)) rfl (takeBytes_zero _).symm)
    exact absurd within (Nat.not_le.mpr (of_decide_eq_true more))

end CodeWeave
