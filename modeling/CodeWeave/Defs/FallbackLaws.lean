import CodeWeave.Defs.FallbackReferences
import CodeWeave.Defs.Index.SearchLaws
import Mathlib.Data.Set.List

namespace CodeWeave

variable {chars : CharClasses} {classify : Classifier} {index : CodeIndex} {ws : Workspace}
  {encoder : HandleEncoder ws} {scope : SearchScope} {query : ReferenceQuery}
  {target : FallbackTarget} {response : FallbackResponse}

namespace CodeIndex

theorem mem_referenceFiles {file : FileEntry} : file ∈ index.referenceFiles scope query ↔
    index.lookup file.path = some file ∧ InScope scope.paths file.path ∧
      query.scope.allows file = true := by
  rw [referenceFiles, sortByPath, List.mem_mergeSort, List.mem_filter, List.mem_filter, mem_entries,
    allows_iff, and_assoc]

theorem nodup_referenceFiles (index : CodeIndex) (scope : SearchScope) (query : ReferenceQuery) :
    (index.referenceFiles scope query).Nodup := by
  refine (List.mergeSort_perm _ _).nodup_iff.mpr (List.Nodup.filter _ (List.Nodup.filter _ ?_))
  exact index.nodup_entries.of_map

theorem flatMap_hits_referenceWindows (file : FileEntry) :
    ((referenceWindows chars classify query target file).flatMap Window.hits).Perm
      (selectedOccurrences chars classify query target file) := by
  have pushed := WindowBuilder.flatMap_hits_pushAll
    (.new query.contextLines file.lineCount (some occurrencesPerWindow))
    ((selectedOccurrences chars classify query target file).map fun occurrence =>
      ⟨occurrence.startLine, occurrence.endLine, occurrence⟩)
  rw [WindowBuilder.pushAll, List.foldl_map, List.map_map] at pushed
  refine ((List.mergeSort_perm _ _).flatMap_right _).trans (List.Perm.of_eq ?_)
  rw [pushed]
  simp [WindowBuilder.new, Function.comp_def]

theorem hits_referenceWindows {file : FileEntry} {window : Window EnclosedOccurrence}
    (mem : window ∈ referenceWindows chars classify query target file) : window.hits ≠ [] := by
  have nonempty := @WindowBuilder.hits_ne_nil _
    (.new query.contextLines file.lineCount (some occurrencesPerWindow)) nofun
    ((selectedOccurrences chars classify query target file).map fun occurrence =>
      ⟨occurrence.startLine, occurrence.endLine, occurrence⟩)
  rw [WindowBuilder.pushAll, List.foldl_map] at nonempty
  exact nonempty window (List.mem_mergeSort.mp mem)

theorem nodup_selectedOccurrences (identifier : IsIdentifier chars target.symbol.name)
    (file : FileEntry) : ((selectedOccurrences chars classify query target file).map
      fun occurrence => occurrence.startByte).Nodup :=
  identifier.nodup_occurrences.sublist (List.Sublist.map _ List.filter_sublist)

def Unshared (first second : Window EnclosedOccurrence) : Prop :=
  List.Disjoint (first.hits.map fun occurrence => occurrence.startByte)
    (second.hits.map fun occurrence => occurrence.startByte)

instance : Std.Symm Unshared := ⟨fun _ _ => List.Disjoint.symm⟩

theorem unshared_referenceWindows (identifier : IsIdentifier chars target.symbol.name)
    (file : FileEntry) :
    (referenceWindows chars classify query target file).Pairwise Unshared := by
  have distinct := @nodup_selectedOccurrences chars classify query target identifier file
  rw [← ((flatMap_hits_referenceWindows file).map _).nodup_iff, List.map_flatMap,
    List.nodup_flatMap] at distinct
  exact distinct.2

theorem nodup_referenceWindows (identifier : IsIdentifier chars target.symbol.name)
    (file : FileEntry) : (referenceWindows chars classify query target file).Nodup := by
  refine (unshared_referenceWindows identifier file).imp_of_mem fun mem _ disjoint same => ?_
  obtain ⟨occurrence, rest, eq⟩ := List.exists_cons_of_ne_nil (hits_referenceWindows mem)
  rw [← same, Unshared, eq] at disjoint
  exact disjoint List.mem_cons_self List.mem_cons_self

def matchedWindows (chars : CharClasses) (classify : Classifier) (index : CodeIndex)
    (scope : SearchScope) (query : ReferenceQuery) (target : FallbackTarget) :
    List (FileEntry × Window EnclosedOccurrence) :=
  windowsOf (referenceWindows chars classify query target) (index.referenceFiles scope query)

def cappedWindows (chars : CharClasses) (classify : Classifier) (index : CodeIndex)
    (scope : SearchScope) (query : ReferenceQuery) (target : FallbackTarget) :
    List (FileEntry × Window EnclosedOccurrence) :=
  windowsOf (fun file => (referenceWindows chars classify query target file).take
    (min scope.limit windowsPerFile)) (index.referenceFiles scope query)

theorem nodup_matchedWindows (identifier : IsIdentifier chars target.symbol.name) :
    (matchedWindows chars classify index scope query target).Nodup :=
  nodup_windowsOf (nodup_referenceFiles index scope query) fun file _ =>
    nodup_referenceWindows identifier file

theorem cappedWindows_sublist :
    (cappedWindows chars classify index scope query target).Sublist
      (matchedWindows chars classify index scope query target) :=
  List.Sublist.flatMap_right _ fun _ _ => (List.take_sublist _ _).map _

def locate {ws : Workspace} (encoder : HandleEncoder ws) (workspaceId : Text)
    (targetFile : FileEntry) (target : FallbackTarget) :
    Option (FileEntry × Window EnclosedOccurrence) → FallbackLocation
  | none => declarationLocation encoder workspaceId targetFile target.symbol
      target.declarationOccurrence
  | some found => referenceLocation encoder workspaceId found.1 found.2

structure Chosen (chars : CharClasses) (classify : Classifier) (index : CodeIndex)
    (encoder : HandleEncoder ws) (scope : SearchScope) (query : ReferenceQuery)
    (target : FallbackTarget) (response : FallbackResponse) (targetFile : FileEntry)
    (windows : List (FileEntry × Window EnclosedOccurrence)) : Prop where
  indexed : index.get target.target.path = some targetFile
  results : response.results =
    ((if declarationAdded scope query target targetFile then [none] else []) ++
      windows.map some).map (locate encoder scope.workspaceId targetFile target)
  matched : windows.Subperm (matchedWindows chars classify index scope query target)
  room : windows.length = min
    (if declarationAdded scope query target targetFile then scope.limit - 1 else scope.limit)
    (cappedWindows chars classify index scope query target).length
  truncated : response.truncated = true ↔ response.results.length <
    (matchedWindows chars classify index scope query target).length

theorem somes_of_perm {A : Type} {items left : List (Option A)} {all : List A}
    (perm : (items ++ left).Perm (all.map some)) :
    ∃ chosen : List A, items = chosen.map some ∧ chosen.Subperm all := by
  have each (item : Option A) (mem : item ∈ items) : ∃ a, some a = item := by
    obtain ⟨a, -, eq⟩ := List.mem_map.mp (perm.subset (List.mem_append_left _ mem))
    exact ⟨a, eq⟩
  obtain ⟨chosen, rfl⟩ : items ∈ Set.range (List.map some) := by
    rw [Set.range_list_map]
    exact each
  refine ⟨chosen, rfl, ?_⟩
  have kept := perm.filterMap id
  simp only [List.filterMap_append, List.filterMap_map, Function.id_comp] at kept
  rw [List.filterMap_some, List.filterMap_some] at kept
  exact (List.sublist_append_left _ _).subperm.trans kept.subperm

theorem interleave_extra {A : Type} {key : Option A → Nat} (least : key none = 0) {limit : Nat}
    (room : limit ≠ 0) {more : List (List (Option A))} (nonempty : ∀ group ∈ more, group ≠ [])
    {capped : List A} (flat : more.flatten = capped.map some) (extra : Bool) :
    ∃ chosen : List A,
      RoundRobin.interleave limit
        (((if extra then [[none]] else []) ++ more).mergeSort (FileGroups.byFirst key)) =
          (if extra then [none] else []) ++ chosen.map some ∧
      chosen.Subperm capped ∧
      chosen.length = min (if extra then limit - 1 else limit) capped.length := by
  have whole := (List.mergeSort_perm ((if extra then [[none]] else []) ++ more)
    (FileGroups.byFirst key)).flatten
  obtain ⟨left, perm, -⟩ := RoundRobin.interleave_perm limit
    (((if extra then [[none]] else []) ++ more).mergeSort (FileGroups.byFirst key))
  have length := RoundRobin.interleave_length limit
    (((if extra then [[none]] else []) ++ more).mergeSort (FileGroups.byFirst key))
  have all := perm.trans whole
  rw [whole.length_eq] at length
  cases extra with
  | false =>
    simp only [Bool.false_eq_true, if_false, List.nil_append, flat] at all length ⊢
    obtain ⟨chosen, eq, sub⟩ := somes_of_perm all
    refine ⟨chosen, eq, sub, ?_⟩
    rw [eq, List.length_map, List.length_map] at length
    exact length
  | true =>
    obtain ⟨rest, sorted⟩ := FileGroups.mergeSort_byFirst nonempty least
    simp only [if_true, List.singleton_append, List.flatten_cons, flat] at all length ⊢
    rw [sorted] at all length ⊢
    have head := RoundRobin.interleave_head room none [] rest
    obtain ⟨items, eq⟩ := List.head?_eq_some_iff.mp head
    rw [eq, List.cons_append, List.perm_cons] at all
    obtain ⟨chosen, rfl, sub⟩ := somes_of_perm all
    refine ⟨chosen, eq, sub, ?_⟩
    rw [eq] at length
    simp only [List.length_cons, List.length_map] at length
    omega

theorem fallbackForTarget_chosen
    (ok : fallbackForTarget chars classify index encoder scope query target = .ok response) :
    ∃ targetFile windows,
      Chosen chars classify index encoder scope query target response targetFile windows := by
  rw [fallbackForTarget] at ok
  split at ok
  · cases ok
  · next targetFile indexed =>
    cases ok
    have start : (if declarationAdded scope query target targetFile then
        (FileGroups.new.pushExtra (declarationLocation encoder scope.workspaceId targetFile
          target.symbol target.declarationOccurrence) : FileGroups FallbackLocation)
        else .new).groups = (if declarationAdded scope query target targetFile then [[none]]
          else []).map (List.map (locate encoder scope.workspaceId targetFile target)) := by
      split <;> rfl
    obtain ⟨more, pushed, flat, nonempty, total⟩ := FileGroups.foldl_pushFile
      (fun file window => some (file, window))
      (locate encoder scope.workspaceId targetFile target)
      (referenceWindows chars classify query target) (min scope.limit windowsPerFile)
      (index.referenceFiles scope query) _ _ start
    have sorted := FileGroups.sortByFirst_groups
      (locate encoder scope.workspaceId targetFile target)
      (fun location => kindPriority location.referenceKind) pushed
    have capped : more.flatten =
        (cappedWindows chars classify index scope query target).map some := by
      rw [flat, cappedWindows, windowsOf, List.map_flatMap]
      simp only [List.map_map, Function.comp_def]
    obtain ⟨windows, items, sub, room⟩ := @interleave_extra _ (fun item => kindPriority
        (locate encoder scope.workspaceId targetFile target item).referenceKind) rfl scope.limit
      scope.limit_ne_zero more nonempty _ capped (declarationAdded scope query target targetFile)
    have shown := congrArg (RoundRobin.interleave scope.limit) sorted
    rw [RoundRobin.interleave_map, items] at shown
    have count : _ = (matchedWindows chars classify index scope query target).length := total.trans
      (by split <;> simp [FileGroups.new, FileGroups.pushExtra, matchedWindows])
    refine ⟨targetFile, windows, indexed, shown, sub.trans cappedWindows_sublist.subperm, room, ?_⟩
    rw [← count]
    exact decide_eq_true_iff

end CodeIndex

def FallbackLocation.lists (result : FallbackLocation) (path : Text) (start finish : Nat) : Bool :=
  result.matchType = .reference && result.path = path && result.occurrences.any fun occurrence =>
    occurrence.range.start.byte = some start && occurrence.range.finish.byte = some finish

structure Sought (chars : CharClasses) (classify : Classifier) (index : CodeIndex)
    (scope : SearchScope) (query : ReferenceQuery) (target : FallbackTarget) (file : FileEntry)
    (start finish : Nat) : Prop where
  indexed : index.lookup file.path = some file
  inScope : InScope scope.paths file.path
  allowed : query.scope.allows file = true
  word : ∃ before after, WordAt chars file.content before target.symbol.name after ∧
    start = utf8Count before ∧ finish = utf8Count before + utf8Count target.symbol.name
  role : query.kinds = [] ∨
    (classify file.path file.content target.symbol.name file.symbols start finish).role ∈ query.kinds
  other : ¬(file.path = target.target.path ∧ target.selectedDeclaration = some (start, finish))

/-- What a response says of the occurrences it does not list. -/
structure FallbackResponse.Honest (chars : CharClasses) (classify : Classifier)
    (index : CodeIndex) (scope : SearchScope) (query : ReferenceQuery) (target : FallbackTarget)
    (response : FallbackResponse) : Prop where
  complete : response.truncated = false → ∀ file start finish,
    Sought chars classify index scope query target file start finish →
    (response.results.filter fun result => result.lists file.path start finish).length = 1
  left_out : response.truncated = true → ∃ file window,
    file ∈ index.referenceFiles scope query ∧
    window ∈ CodeIndex.referenceWindows chars classify query target file ∧
    ∀ occurrence ∈ window.hits, ∀ result ∈ response.results,
      result.lists file.path occurrence.startByte occurrence.endByte = false

namespace CodeIndex

/-- The declaration is a result, and one window more is matched than there is room for
beside it. -/
def OneTooMany (chars : CharClasses) (classify : Classifier) (index : CodeIndex)
    (scope : SearchScope) (query : ReferenceQuery) (target : FallbackTarget) : Prop :=
  (∃ targetFile, index.get target.target.path = some targetFile ∧
    declarationAdded scope query target targetFile = true) ∧
  (matchedWindows chars classify index scope query target).length =
    min (scope.limit - 1) (cappedWindows chars classify index scope query target).length + 1

theorem sought_iff (identifier : IsIdentifier chars target.symbol.name) {file : FileEntry}
    {start finish : Nat} : Sought chars classify index scope query target file start finish ↔
      file ∈ index.referenceFiles scope query ∧
      ∃ occurrence ∈ selectedOccurrences chars classify query target file,
        occurrence.startByte = start ∧ occurrence.endByte = finish := by
  simp only [selectedOccurrences, List.mem_filter, identifier.occurrences_eq, List.mem_map,
    mem_referenceFiles]
  have selected_iff (role : ReferenceKind) (start finish : Nat) :
      (!((file.path = target.target.path && target.selectedDeclaration = some (start, finish)) ||
        !(query.kinds = [] || query.kinds.contains role))) = true ↔
      ¬(file.path = target.target.path ∧ target.selectedDeclaration = some (start, finish)) ∧
        (query.kinds = [] ∨ role ∈ query.kinds) := by
    simp [imp_iff_not_or]
  constructor
  · rintro ⟨indexed, inScope, allowed, ⟨before, after, word, rfl, rfl⟩, role, other⟩
    refine ⟨⟨indexed, inScope, allowed⟩, _, ⟨⟨_,
      (mem_lexicalIdentifierOccurrences identifier).mpr ⟨before, after, word, rfl⟩, rfl⟩, ?_⟩,
      word.startByte, word.endByte⟩
    rw [selected_iff]
    simp only [EnclosedOccurrence.classified, word.startByte, word.endByte]
    exact ⟨other, role⟩
  · rintro ⟨⟨indexed, inScope, allowed⟩, _, ⟨⟨occurrence, mem, rfl⟩, selected⟩, rfl, rfl⟩
    obtain ⟨before, after, word, rfl⟩ := (mem_lexicalIdentifierOccurrences identifier).mp mem
    obtain ⟨other, role⟩ := (selected_iff _ _ _).mp selected
    exact ⟨indexed, inScope, allowed, ⟨before, after, word, word.startByte, word.endByte⟩,
      role, other⟩

theorem lists_locate_some (targetFile : FileEntry) (found : FileEntry × Window EnclosedOccurrence)
    (path : Text) (start finish : Nat) :
    (locate encoder scope.workspaceId targetFile target (some found)).lists path start finish =
        true ↔ found.1.path = path ∧
      ∃ occurrence ∈ found.2.hits, occurrence.startByte = start ∧ occurrence.endByte = finish := by
  simp [locate, FallbackLocation.lists, referenceLocation, referenceOccurrence, occurrenceRange]

theorem lists_iff_eq (identifier : IsIdentifier chars target.symbol.name) (targetFile : FileEntry)
    {found here : FileEntry × Window EnclosedOccurrence}
    (among : found ∈ matchedWindows chars classify index scope query target)
    (mem : here ∈ matchedWindows chars classify index scope query target)
    {occurrence : EnclosedOccurrence} (hit : occurrence ∈ here.2.hits) :
    (locate encoder scope.workspaceId targetFile target (some found)).lists here.1.path
      occurrence.startByte occurrence.endByte = true ↔ found = here := by
  rw [lists_locate_some]
  constructor
  · rintro ⟨path, other, hit', start, -⟩
    obtain ⟨searched, window⟩ := mem_windowsOf.mp among
    obtain ⟨searched', window'⟩ := mem_windowsOf.mp mem
    have first := (mem_referenceFiles.mp searched).1
    rw [path, (mem_referenceFiles.mp searched').1, Option.some.injEq] at first
    refine Prod.ext first.symm ?_
    by_contra differ
    rw [← first] at window
    have apart := (unshared_referenceWindows identifier here.1).forall window window' differ
    refine apart (List.mem_map_of_mem hit') ?_
    rw [start]
    exact List.mem_map_of_mem hit
  · rintro rfl
    exact ⟨rfl, occurrence, hit, rfl, rfl⟩

theorem Chosen.listed {targetFile : FileEntry}
    {windows : List (FileEntry × Window EnclosedOccurrence)}
    (chosen : Chosen chars classify index encoder scope query target response targetFile windows)
    (identifier : IsIdentifier chars target.symbol.name)
    {here : FileEntry × Window EnclosedOccurrence}
    (mem : here ∈ matchedWindows chars classify index scope query target)
    {occurrence : EnclosedOccurrence} (hit : occurrence ∈ here.2.hits) :
    (response.results.filter fun result => result.lists here.1.path occurrence.startByte
      occurrence.endByte).length = windows.count here := by
  have extra : (((if declarationAdded scope query target targetFile then [none] else []).map
      (locate encoder scope.workspaceId targetFile target)).filter fun result =>
        result.lists here.1.path occurrence.startByte occurrence.endByte) = [] := by
    split <;> rfl
  rw [chosen.results, List.map_append, List.filter_append, extra, List.nil_append,
    ← List.countP_eq_length_filter, List.countP_map, List.countP_map, List.count]
  refine List.countP_congr fun found among => ?_
  rw [beq_iff_eq]
  exact lists_iff_eq identifier targetFile (chosen.matched.subset among) mem hit

end CodeIndex

theorem fallback_honest_iff (identifier : IsIdentifier chars target.symbol.name)
    (ok : index.fallbackForTarget chars classify encoder scope query target = .ok response) :
    response.Honest chars classify index scope query target ↔
      ¬index.OneTooMany chars classify scope query target := by
  obtain ⟨targetFile, windows, chosen⟩ := CodeIndex.fallbackForTarget_chosen ok
  have distinct := @CodeIndex.nodup_matchedWindows chars classify index scope query target identifier
  have within := chosen.matched.length_le
  have room := chosen.room
  have total := congrArg List.length chosen.results
  rw [List.length_map, List.length_append, List.length_map] at total
  have declared_iff : (∃ targetFile, index.get target.target.path = some targetFile ∧
      CodeIndex.declarationAdded scope query target targetFile = true) ↔
        CodeIndex.declarationAdded scope query target targetFile = true := by
    rw [chosen.indexed]
    simp
  have missing (fewer : windows.length <
      (index.matchedWindows chars classify scope query target).length) :
      ∃ here ∈ index.matchedWindows chars classify scope query target, here ∉ windows :=
    (length_lt_iff_left_out chosen.matched distinct).mp fewer
  constructor
  · rintro honest ⟨declared, one⟩
    rw [declared_iff] at declared
    rw [if_pos declared] at room total
    have silent : response.truncated = false := by
      refine Bool.eq_false_of_not_eq_true fun loud => ?_
      have more := chosen.truncated.mp loud
      rw [List.length_singleton] at total
      omega
    obtain ⟨here, mem, left_out⟩ := missing (by omega)
    obtain ⟨searched, window⟩ := mem_windowsOf.mp mem
    obtain ⟨occurrence, rest, eq⟩ :=
      List.exists_cons_of_ne_nil (CodeIndex.hits_referenceWindows window)
    have hit : occurrence ∈ here.2.hits := by
      rw [eq]
      exact List.mem_cons_self
    have sought : Sought chars classify index scope query target here.1 occurrence.startByte
        occurrence.endByte :=
      (CodeIndex.sought_iff identifier).mpr ⟨searched, occurrence,
        (CodeIndex.flatMap_hits_referenceWindows here.1).subset
          (List.mem_flatMap.mpr ⟨here.2, window, hit⟩), rfl, rfl⟩
    have once := honest.complete silent _ _ _ sought
    rw [chosen.listed identifier mem hit, List.count_eq_zero_of_not_mem left_out] at once
    cases once
  · intro fits
    refine ⟨fun silent file start finish sought => ?_, fun loud => ?_⟩
    · have full : ¬windows.length <
          (index.matchedWindows chars classify scope query target).length := by
        intro fewer
        have enough : ¬response.results.length <
            (index.matchedWindows chars classify scope query target).length := fun more => by
          rw [chosen.truncated.mpr more] at silent
          cases silent
        by_cases declared : CodeIndex.declarationAdded scope query target targetFile = true
        · rw [if_pos declared] at room total
          rw [List.length_singleton] at total
          exact fits ⟨declared_iff.mpr declared, by omega⟩
        · rw [if_neg declared] at room total
          rw [List.length_nil] at total
          omega
      obtain ⟨searched, occurrence, mem, rfl, rfl⟩ := (CodeIndex.sought_iff identifier).mp sought
      obtain ⟨window, among, hit⟩ := List.mem_flatMap.mp
        ((CodeIndex.flatMap_hits_referenceWindows file).symm.subset mem)
      have here : (file, window) ∈ index.matchedWindows chars classify scope query target :=
        mem_windowsOf.mpr ⟨searched, among⟩
      have taken := (chosen.matched.perm_of_length_le (Nat.not_lt.mp full))
      rw [@CodeIndex.Chosen.listed _ _ _ _ _ _ _ _ _ _ _ chosen identifier (file, window) here _ hit,
        taken.count_eq]
      exact List.count_eq_one_of_mem distinct here
    · have more := chosen.truncated.mp loud
      obtain ⟨here, mem, left_out⟩ := missing (by
        split at total
        · rw [List.length_singleton] at total; omega
        · rw [List.length_nil] at total; omega)
      obtain ⟨searched, window⟩ := mem_windowsOf.mp mem
      refine ⟨here.1, here.2, searched, window, fun occurrence hit result shown => ?_⟩
      have none := chosen.listed identifier mem hit
      rw [List.count_eq_zero_of_not_mem left_out, List.length_eq_zero_iff,
        List.filter_eq_nil_iff] at none
      exact Bool.eq_false_of_not_eq_true (none result shown)

namespace Sample

def letters : CharClasses where
  isAlphanumeric c := decide (48 ≤ c.toNat ∧ c.toNat ≤ 57 ∨ 65 ≤ c.toNat ∧ c.toNat ≤ 90 ∨
    97 ≤ c.toNat ∧ c.toNat ≤ 122)
  not_whitespace c alphanumeric := by
    refine Bool.eq_false_of_not_eq_true fun white => ?_
    have blank := (isWhitespace_iff c).mp white
    have bounds := of_decide_eq_true alphanumeric
    omega

def declaresFirst : Classifier := fun _ _ _ _ start _ =>
  if start = 0 then ⟨.declaration, .syntactic, none⟩ else ⟨.other, .lexical, none⟩

def usingF : FileEntry :=
  ⟨"a".toList, "f\nf\n".toList, "h".toList,
    [⟨"f".toList, "function".toList, 1, 1, "f".toList⟩], 4, 0⟩

def shelfF : CodeIndex := CodeIndex.empty.insert declaring usingF

def targetF : FallbackTarget where
  target := ⟨"f".toList, "a".toList, ⟨⟨1, 1, some 0⟩, ⟨1, 2, some 1⟩⟩, "function".toList, none⟩
  symbol := ⟨"f".toList, "function".toList, 1, 1, "f".toList⟩
  targetEvidence := .syntactic
  declarationOccurrence := some ⟨⟨0, 1, 1, 1, 1, 2, .declaration, .syntactic⟩, none⟩

def queryF : ReferenceQuery := ⟨"f".toList, .all, [.declaration, .other], 0⟩

theorem identifierF : IsIdentifier letters targetF.symbol.name := ⟨nofun, List.all_eq_true.mp rfl⟩

/-- With room for one result, the declaration takes it, and the other occurrence is left out
without a word. -/
theorem fallback_hides_use : ∃ response,
    shelfF.fallbackForTarget letters declaresFirst handles (everywhere 1) queryF targetF =
      .ok response ∧
    ¬response.Honest letters declaresFirst shelfF (everywhere 1) queryF targetF := by
  refine ⟨_, rfl, fun honest => ?_⟩
  have sought : Sought letters declaresFirst shelfF (everywhere 1) queryF targetF usingF 2 3 :=
    ⟨by decide, .inl nofun, rfl, ⟨"f\n".toList, "\n".toList,
      ⟨rfl, fun c last => by cases last; rfl, fun c first => by cases first; rfl⟩, rfl, rfl⟩,
      .inr (by decide), by decide⟩
  obtain ⟨targetFile, windows, chosen⟩ := @CodeIndex.fallbackForTarget_chosen letters declaresFirst
    shelfF declaring handles (everywhere 1) queryF targetF _ rfl
  have declared : CodeIndex.declarationAdded (everywhere 1) queryF targetF targetFile = true := rfl
  have matched : (shelfF.matchedWindows letters declaresFirst (everywhere 1) queryF
      targetF).length = 1 := by decide +kernel
  have room := chosen.room
  rw [if_pos declared] at room
  have none : windows = [] := List.length_eq_zero_iff.mp
    (Nat.eq_zero_of_le_zero (room.le.trans (Nat.min_le_left 0 _)))
  have results := chosen.results
  rw [if_pos declared, none] at results
  have silent := chosen.truncated.not.mpr (by
    rw [results, matched]
    exact Nat.lt_irrefl 1)
  have once := honest.complete (Bool.eq_false_of_not_eq_true silent) usingF 2 3 sought
  rw [results] at once
  cases once

theorem fallback_honest_two : ∃ response,
    shelfF.fallbackForTarget letters declaresFirst handles (everywhere 2) queryF targetF =
      .ok response ∧
    response.Honest letters declaresFirst shelfF (everywhere 2) queryF targetF := by
  refine ⟨_, rfl, (fallback_honest_iff identifierF rfl).mpr ?_⟩
  rintro ⟨-, one⟩
  exact absurd one (by decide +kernel)

end Sample

end CodeWeave
