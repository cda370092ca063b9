import CodeWeave.Defs.Index.Search
import CodeWeave.Defs.Index.WindowLaws
import Mathlib.Data.List.NodupEquivFin

namespace CodeWeave

def InScope (paths : List Text) (path : Text) : Prop :=
  (∀ filter ∈ paths, normalizePathText filter = []) ∨
    ∃ filter ∈ paths.map normalizePathText, filter ≠ [] ∧
      (path = filter ∨ filter ++ ['/'] <+: path ∨ (filter.getLast? = some '/' ∧ filter <+: path))

theorem stripPrefix_any_iff (filter path : Text) :
    (stripPrefix filter path).any (fun suffix => suffix.head? = some '/') = true ↔
      filter ++ ['/'] <+: path := by
  rw [stripPrefix]
  constructor
  · intro below
    split at below
    · next starts =>
      obtain ⟨rest, rfl⟩ := List.isPrefixOf_iff_prefix.mp starts
      simp only [List.drop_left, Option.any_some, decide_eq_true_eq] at below
      obtain ⟨tail, rfl⟩ := List.head?_eq_some_iff.mp below
      exact ⟨tail, by simp⟩
    · cases below
  · rintro ⟨rest, rfl⟩
    rw [List.append_assoc, if_pos (List.isPrefixOf_iff_prefix.mpr (List.prefix_append ..)),
      List.drop_left]
    rfl

theorem pathMatchesFilter_iff (path filter : Text) : pathMatchesFilter path filter = true ↔
    path = filter ∨ filter ++ ['/'] <+: path ∨ (filter.getLast? = some '/' ∧ filter <+: path) := by
  rw [pathMatchesFilter]
  split
  · next directory =>
    rw [decide_eq_true_iff]
    constructor
    · intro starts
      exact .inr (.inr ⟨directory, starts⟩)
    · rintro (rfl | below | ⟨-, starts⟩)
      · exact List.prefix_rfl
      · exact (List.prefix_append ..).trans below
      · exact starts
  · next plain =>
    rw [Bool.or_eq_true, decide_eq_true_iff, stripPrefix_any_iff]
    constructor
    · rintro (same | below)
      · exact .inl same
      · exact .inr (.inl below)
    · rintro (same | below | ⟨directory, -⟩)
      · exact .inl same
      · exact .inr below
      · exact absurd directory plain

theorem allows_iff (paths : List Text) (path : Text) :
    (PathFilterSet.new paths).allows path = true ↔ InScope paths path := by
  simp only [PathFilterSet.allows, PathFilterSet.new, Bool.or_eq_true, List.any_eq_true,
    pathMatchesFilter_iff, InScope]
  constructor
  · rintro (none | ⟨filter, mem, hit⟩)
    · refine .inl fun filter mem => ?_
      by_contra some
      have kept : normalizePathText filter ∈ (paths.map normalizePathText).filter (· ≠ []) :=
        List.mem_filter.mpr ⟨List.mem_map_of_mem mem, by simpa using some⟩
      rw [of_decide_eq_true none] at kept
      cases kept
    · obtain ⟨among, some⟩ := List.mem_filter.mp mem
      exact .inr ⟨filter, among, by simpa using some, hit⟩
  · rintro (none | ⟨filter, among, some, hit⟩)
    · refine .inl (decide_eq_true (List.filter_eq_nil_iff.mpr fun filter mem => ?_))
      obtain ⟨original, among, rfl⟩ := List.mem_map.mp mem
      simp [none original among]
    · exact .inr ⟨filter, List.mem_filter.mpr ⟨among, by simpa using some⟩, hit⟩

def TextQuery.Matches (engine : RegexEngine) (query : TextQuery) (line : Text) : Prop :=
  match query.style with
  | .literal =>
    if query.caseSensitive then query.pattern <:+: line
    else asciiLower query.pattern <:+: asciiLower line
  | .regex => ∃ isMatch, engine.compile query.pattern (!query.caseSensitive) = .ok isMatch ∧
      isMatch line = true

theorem toLower_eq_iff {c : Char} (low : c.toNat < 65) (d : Char) : d.toLower = c ↔ d = c := by
  by_cases upper : d.val ≥ 'A'.val ∧ d.val ≤ 'Z'.val
  · have lowered : d.toLower.val = d.val + 32 := congrArg Char.val (dif_pos upper)
    have lettered : 65 ≤ d.val.toNat := upper.1
    have bounded : d.val.toNat ≤ 90 := upper.2
    constructor
    · rintro rfl
      have shifted : d.toLower.val.toNat < 65 := low
      rw [lowered, UInt32.toNat_add, show (32 : UInt32).toNat = 32 from rfl] at shifted
      omega
    · rintro rfl
      exact absurd low (Nat.not_lt.mpr lettered)
  · have kept : d.toLower = d := dif_neg upper
    rw [kept]

theorem lines_asciiLower (text : Text) : lines (asciiLower text) = (lines text).map asciiLower :=
  lines_map (toLower_eq_iff (by decide)) (toLower_eq_iff (by decide)) text

namespace LineMatcher

variable {engine : RegexEngine} {query : TextQuery} {matcher : LineMatcher}

theorem isMatch_iff (made : LineMatcher.new engine query = .ok matcher) (file : FileEntry)
    (n : Nat) : (∃ line, (lines (matcher.haystack file))[n]? = some line ∧
        matcher.isMatch line = true) ↔
      ∃ line, (lines file.content)[n]? = some line ∧ query.Matches engine line := by
  simp only [LineMatcher.new] at made
  split at made
  · next literal =>
    cases made
    simp only [TextQuery.Matches, literal]
    cases query.caseSensitive with
    | true => simp [haystack, isMatch]
    | false => simp [haystack, isMatch, FileEntry.searchContent, lines_asciiLower]
  · next regex =>
    split at made
    · next found compiled =>
      cases made
      simp [TextQuery.Matches, regex, compiled, haystack, isMatch]
    · cases made

theorem mayMatch_of_line {file : FileEntry} {line : Text}
    (mem : line ∈ lines (matcher.haystack file)) (found : matcher.isMatch line = true) :
    matcher.mayMatch file = true := by
  cases matcher with
  | exact needle | folded needle =>
    simp only [isMatch, decide_eq_true_eq] at found
    simp only [mayMatch, decide_eq_true_eq]
    exact found.trans (infix_of_mem_lines mem)
  | regex => rfl

variable (matcher) (file : FileEntry)

theorem length_haystack :
    (lines (matcher.haystack file)).length = (lines file.content).length := by
  cases matcher with
  | folded needle => rw [haystack, FileEntry.searchContent, lines_asciiLower, List.length_map]
  | exact | regex => rfl

def hits : List (Hit Unit) :=
  ((lines (matcher.haystack file)).zipIdx.filter fun numbered => matcher.isMatch numbered.1).map
    fun numbered => ⟨numbered.2 + 1, numbered.2 + 1, ()⟩

theorem windows_eq (contextLines : Nat) : matcher.windows file contextLines =
    ((WindowBuilder.new contextLines file.lineCount none).pushAll (matcher.hits file)).windows := by
  rw [windows, WindowBuilder.pushAll, hits, List.foldl_map, List.foldl_filter]

theorem mem_hits {hit : Hit Unit} : hit ∈ matcher.hits file ↔
    ∃ n line, (lines (matcher.haystack file))[n]? = some line ∧ matcher.isMatch line = true ∧
      hit = ⟨n + 1, n + 1, ()⟩ := by
  simp only [hits, List.mem_map, List.mem_filter, Prod.exists, List.mem_zipIdx_iff_getElem?]
  constructor
  · rintro ⟨line, n, ⟨here, found⟩, rfl⟩
    exact ⟨n, line, here, found, rfl⟩
  · rintro ⟨n, line, here, found, rfl⟩
    exact ⟨line, n, ⟨here, found⟩, rfl⟩

theorem hitsAscend_hits : HitsAscend file.lineCount (matcher.hits file) := by
  constructor
  · refine List.pairwise_map.mpr (List.Pairwise.filter _ ?_)
    have indices := List.pairwise_lt_range' (s := 0) (n := (lines (matcher.haystack file)).length)
    rw [← List.zipIdx_map_snd, List.pairwise_map] at indices
    exact indices.imp fun before => by simp only; omega
  · intro hit mem
    obtain ⟨n, line, here, -, rfl⟩ := (matcher.mem_hits file).mp mem
    have bound := (List.getElem?_eq_some_iff.mp here).1
    rw [matcher.length_haystack file] at bound
    have count : file.lineCount = max (lines file.content).length 1 := rfl
    simp only
    omega

theorem line_in_windows (contextLines : Nat) {n : Nat} {line : Text}
    (here : (lines (matcher.haystack file))[n]? = some line)
    (found : matcher.isMatch line = true) :
    ∃ window ∈ matcher.windows file contextLines,
      window.startLine ≤ n + 1 ∧ n + 1 ≤ window.endLine := by
  obtain ⟨runs, all, covers⟩ := @WindowBuilder.covers_pushAll _ contextLines _ none _
    (matcher.hitsAscend_hits file)
  have hit : ⟨n + 1, n + 1, ()⟩ ∈ runs.flatten := by
    rw [all]
    exact (matcher.mem_hits file).mpr ⟨n, line, here, found, rfl⟩
  obtain ⟨run, among, mem⟩ := List.mem_flatten.mp hit
  obtain ⟨window, there, holds⟩ := WindowBuilder.window_of_mem covers among
  rw [windows_eq]
  exact ⟨window, there, holds.within _ mem⟩

theorem window_in_file (contextLines : Nat) {window : Window Unit}
    (mem : window ∈ matcher.windows file contextLines) :
    1 ≤ window.startLine ∧ window.startLine ≤ window.line ∧ window.line ≤ window.endLine ∧
      window.endLine ≤ file.lineCount ∧ ∃ n line, (lines (matcher.haystack file))[n]? = some line ∧
        matcher.isMatch line = true ∧ window.line = n + 1 := by
  rw [windows_eq] at mem
  have order := matcher.hitsAscend_hits file
  obtain ⟨runs, all, covers⟩ := @WindowBuilder.covers_pushAll _ contextLines _ none _ order
  obtain ⟨run, among, holds⟩ := WindowBuilder.covers_of_mem covers mem
  have inside := WindowBuilder.startLine_le_endLine order mem
  obtain ⟨first, here, starts⟩ := holds.nonempty
  have hit : first ∈ matcher.hits file := by
    rw [← all]
    exact List.mem_flatten_of_mem among here
  obtain ⟨n, line, at_n, found, rfl⟩ := (matcher.mem_hits file).mp hit
  exact ⟨holds.start_pos, inside.1, inside.2, holds.end_le, n, line, at_n, found, starts.symm⟩

theorem disjoint_windows (contextLines : Nat) : (matcher.windows file contextLines).Pairwise
    fun first second => first.endLine < second.startLine := by
  rw [windows_eq]
  exact WindowBuilder.disjoint_pushAll (matcher.hitsAscend_hits file)

theorem separate_windows (contextLines : Nat) {first second : Window Unit}
    (mem : first ∈ matcher.windows file contextLines)
    (mem' : second ∈ matcher.windows file contextLines) (differ : first ≠ second) :
    first.Apart second := by
  have apart : (matcher.windows file contextLines).Pairwise Window.Apart :=
    (matcher.disjoint_windows file contextLines).imp .inl
  exact apart.forall mem mem' differ

theorem nodup_windows (contextLines : Nat) : (matcher.windows file contextLines).Nodup := by
  refine (matcher.disjoint_windows file contextLines).imp_of_mem fun mem _ before same => ?_
  have inside := matcher.window_in_file file contextLines mem
  rw [← same] at before
  omega

end LineMatcher

namespace CodeIndex

variable {index : CodeIndex} {ws : Workspace} {encoder : HandleEncoder ws} {engine : RegexEngine}
  {scope : SearchScope} {query : TextQuery} {response : TextResponse}

def searched (index : CodeIndex) (scope : SearchScope) (matcher : LineMatcher) : List FileEntry :=
  sortByPath ((index.entries.filter fun file =>
    (PathFilterSet.new scope.paths).allows file.path).filter matcher.mayMatch)

theorem mem_searched {matcher : LineMatcher} {file : FileEntry} :
    file ∈ index.searched scope matcher ↔ index.lookup file.path = some file ∧
      InScope scope.paths file.path ∧ matcher.mayMatch file = true := by
  rw [searched, sortByPath, List.mem_mergeSort, List.mem_filter, List.mem_filter, mem_entries,
    allows_iff, and_assoc]

theorem nodup_searched (index : CodeIndex) (scope : SearchScope) (matcher : LineMatcher) :
    (index.searched scope matcher).Nodup := by
  refine (List.mergeSort_perm _ _).nodup_iff.mpr (List.Nodup.filter _ (List.Nodup.filter _ ?_))
  exact index.nodup_entries.of_map

theorem mem_searched_of_window {matcher : LineMatcher} {file : FileEntry} {contextLines : Nat}
    (indexed : index.lookup file.path = some file) (allowed : InScope scope.paths file.path)
    {window : Window Unit} (mem : window ∈ matcher.windows file contextLines) :
    file ∈ index.searched scope matcher := by
  obtain ⟨-, -, -, -, n, line, here, found, -⟩ := matcher.window_in_file file contextLines mem
  exact mem_searched.mpr
    ⟨indexed, allowed, LineMatcher.mayMatch_of_line (List.mem_of_getElem? here) found⟩

theorem searchText_chosen (ok : index.searchText encoder engine scope query = .ok response) :
    ∃ matcher, ∃ chosen : List (FileEntry × Window Unit),
      LineMatcher.new engine query = .ok matcher ∧
      response.results = chosen.map (fun found =>
        textMatch encoder scope.workspaceId query.style found.1 found.2) ∧
      chosen.Subperm (windowsOf (fun file => matcher.windows file query.contextLines)
        (index.searched scope matcher)) ∧
      (response.truncated = true ↔ chosen.length < (windowsOf
        (fun file => matcher.windows file query.contextLines)
        (index.searched scope matcher)).length) := by
  rw [searchText] at ok
  split at ok
  · cases ok
  · split at ok
    · cases ok
    · next matcher made =>
      cases ok
      obtain ⟨chosen, results, sub, truncated⟩ := FileGroups.interleave_windows
        (fun file => matcher.windows file query.contextLines)
        (textMatch encoder scope.workspaceId query.style)
        (if (PathFilterSet.new scope.paths).normalized.length = 1 then scope.limit
          else min scope.limit textWindowsPerFile) scope.limit (index.searched scope matcher)
      exact ⟨matcher, chosen, made, results, sub, truncated⟩

end CodeIndex

/-- What a response of a text search says of the files in its scope. -/
structure TextResponse.Honest (index : CodeIndex) (engine : RegexEngine) (scope : SearchScope)
    (query : TextQuery) (response : TextResponse) : Prop where
  complete : response.truncated = false → ∀ file n line, index.lookup file.path = some file →
    InScope scope.paths file.path → (lines file.content)[n]? = some line →
    query.Matches engine line → ∃ result ∈ response.results, result.path = file.path ∧
      result.startLine ≤ n + 1 ∧ n + 1 ≤ result.endLine
  sound : ∀ result ∈ response.results, ∃ file, index.lookup file.path = some file ∧
    InScope scope.paths file.path ∧ result.path = file.path ∧
    1 ≤ result.startLine ∧ result.startLine ≤ result.line ∧ result.line ≤ result.endLine ∧
    result.endLine ≤ file.lineCount ∧ ∃ n line, (lines file.content)[n]? = some line ∧
      query.Matches engine line ∧ result.startLine ≤ n + 1 ∧ n + 1 ≤ result.endLine
  disjoint : response.results.Pairwise fun first second => first.path = second.path →
    first.endLine < second.startLine ∨ second.endLine < first.startLine
  truncated : response.truncated = true ↔ ∃ matcher file window,
    LineMatcher.new engine query = .ok matcher ∧ index.lookup file.path = some file ∧
    InScope scope.paths file.path ∧ window ∈ matcher.windows file query.contextLines ∧
    ∀ result ∈ response.results, ¬(result.path = file.path ∧
      result.startLine = window.startLine ∧ result.endLine = window.endLine)

theorem searchText_honest {index : CodeIndex} {ws : Workspace} {encoder : HandleEncoder ws}
    {engine : RegexEngine} {scope : SearchScope} {query : TextQuery} {response : TextResponse}
    (ok : index.searchText encoder engine scope query = .ok response) :
    response.Honest index engine scope query := by
  obtain ⟨matcher, chosen, made, results, sub, truncated⟩ := CodeIndex.searchText_chosen ok
  have distinct : (windowsOf (fun file => matcher.windows file query.contextLines)
      (index.searched scope matcher)).Nodup :=
    nodup_windowsOf (index.nodup_searched scope matcher) fun file _ =>
      matcher.nodup_windows file query.contextLines
  have origin {found : FileEntry × Window Unit} (mem : found ∈ chosen) :
      index.lookup found.1.path = some found.1 ∧ InScope scope.paths found.1.path ∧
        found.2 ∈ matcher.windows found.1 query.contextLines := by
    have both := mem_windowsOf.mp (sub.subset mem)
    have searched := CodeIndex.mem_searched.mp both.1
    exact ⟨searched.1, searched.2.1, both.2⟩
  have same_file {found other : FileEntry × Window Unit} (mem : found ∈ chosen)
      (indexed : index.lookup other.1.path = some other.1)
      (same : found.1.path = other.1.path) : found.1 = other.1 := by
    have first := (origin mem).1
    rw [same, indexed, Option.some.injEq] at first
    exact first.symm
  refine ⟨fun all file n line indexed allowed here found => ?_, fun result mem => ?_, ?_,
    truncated.trans ((length_lt_iff_left_out sub distinct).trans ⟨?_, ?_⟩)⟩
  · have full : ¬chosen.length < (windowsOf (fun file => matcher.windows file query.contextLines)
        (index.searched scope matcher)).length := fun fewer => by
      rw [truncated.mpr fewer] at all
      cases all
    obtain ⟨line, here, found⟩ :=
      (LineMatcher.isMatch_iff made file n).mpr ⟨line, here, found⟩
    obtain ⟨window, mem, covers⟩ :=
      matcher.line_in_windows file query.contextLines here found
    have taken : (file, window) ∈ chosen :=
      (sub.perm_of_length_le (Nat.not_lt.mp full)).mem_iff.mpr
        (mem_windowsOf.mpr ⟨CodeIndex.mem_searched_of_window indexed allowed mem, mem⟩)
    rw [results]
    exact ⟨_, List.mem_map_of_mem taken, rfl, covers⟩
  · rw [results] at mem
    obtain ⟨⟨file, window⟩, taken, rfl⟩ := List.mem_map.mp mem
    obtain ⟨indexed, allowed, among⟩ := origin taken
    obtain ⟨start, before, after, finish, n, line, here, found, at_line⟩ :=
      matcher.window_in_file file query.contextLines among
    obtain ⟨line, here, found⟩ := (LineMatcher.isMatch_iff made file n).mp ⟨line, here, found⟩
    exact ⟨file, indexed, allowed, rfl, start, before, after, finish, n, line, here, found,
      at_line ▸ before, at_line ▸ after⟩
  · rw [results, List.pairwise_map]
    have nodup : chosen.Nodup := by
      obtain ⟨same, perm, sublist⟩ := sub
      exact perm.nodup_iff.mp (distinct.sublist sublist)
    refine nodup.imp_of_mem fun {first second} mem mem' differ same => ?_
    have file := same_file mem (origin mem').1 same
    refine matcher.separate_windows first.1 query.contextLines (origin mem).2.2 ?_ fun window =>
      differ (Prod.ext file window)
    rw [file]
    exact (origin mem').2.2
  · rintro ⟨⟨file, window⟩, mem, left_out⟩
    obtain ⟨searched, among⟩ := mem_windowsOf.mp mem
    obtain ⟨indexed, allowed, -⟩ := CodeIndex.mem_searched.mp searched
    refine ⟨matcher, file, window, made, indexed, allowed, among, fun result shown => ?_⟩
    rw [results] at shown
    obtain ⟨⟨file', window'⟩, taken, rfl⟩ := List.mem_map.mp shown
    rintro ⟨path, start, finish⟩
    obtain rfl : file' = file := @same_file (file', window') (file, window) taken indexed path
    refine left_out ?_
    by_cases window_eq : window' = window
    · rwa [← window_eq]
    · exfalso
      have inside := matcher.window_in_file file' query.contextLines among
      have apart := matcher.separate_windows file' query.contextLines (origin taken).2.2 among
        window_eq
      simp only [textMatch, Window.Apart] at start finish apart inside
      omega
  · rintro ⟨other, file, window, made', indexed, allowed, among, missing⟩
    rw [made, Except.ok.injEq] at made'
    subst made'
    refine ⟨(file, window), mem_windowsOf.mpr
      ⟨CodeIndex.mem_searched_of_window indexed allowed among, among⟩, fun taken => ?_⟩
    rw [results] at missing
    exact missing _ (List.mem_map_of_mem taken) ⟨rfl, rfl, rfl⟩

namespace Sample

def shelf : CodeIndex :=
  CodeIndex.empty.insert declaring ⟨"a".toList, "one\ntwo\n".toList, "h".toList, [], 8, 0⟩

def noRegex : RegexEngine := ⟨fun _ _ => .error "regex"⟩

def everywhere (maxResults : Nat) : SearchScope := ⟨"ws".toList, "s".toList, [], maxResults⟩

theorem searchText_honest_two : ∃ response, shelf.searchText handles noRegex (everywhere 1)
      ⟨"TWO".toList, .literal, false, 0⟩ = .ok response ∧
    response.results.map (fun result => (result.path, result.startLine)) = [("a".toList, 2)] ∧
    response.Honest shelf noRegex (everywhere 1) ⟨"TWO".toList, .literal, false, 0⟩ :=
  ⟨_, rfl, by decide +kernel, searchText_honest rfl⟩

end Sample

end CodeWeave
