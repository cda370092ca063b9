import CodeWeave.Defs.Index.Discovery
import CodeWeave.Defs.Index.PostingsLaws

namespace CodeWeave

inductive IndexEdit
  | insert (entry : FileEntry) (canonical : normalizePathText entry.path = entry.path)
  | remove (path : Text)
  | removeTree (path : Text)

namespace IndexEdit

variable (ws : Workspace)

def apply (index : CodeIndex) : IndexEdit → CodeIndex
  | insert entry _ => index.insert ws entry
  | remove path => (index.remove ws path).2
  | removeTree path => (index.removeTree ws path).2

def run (edits : List IndexEdit) : CodeIndex := edits.foldl (apply ws) .empty

end IndexEdit

namespace CodeIndex

variable {ws : Workspace} {index : CodeIndex}

def Canonical (index : CodeIndex) : Prop :=
  ∀ path entry, index.lookup path = some entry → normalizePathText path = path

theorem built_apply (built : Built ws index) (edit : IndexEdit) :
    Built ws (edit.apply ws index) := by
  cases edit with
  | insert entry canonical => exact built.insert entry
  | remove path => exact built.remove path
  | removeTree path => exact built.removeTree path

theorem Canonical.apply (canonical : index.Canonical) (edit : IndexEdit) :
    (edit.apply ws index).Canonical := by
  intro path entry found
  cases edit with
  | insert other own =>
    rw [IndexEdit.apply, lookup_insert] at found
    split at found
    · next same => rw [same, own]
    · exact canonical path entry found
  | remove top =>
    rw [IndexEdit.apply, lookup_remove] at found
    split at found
    · cases found
    · exact canonical path entry found
  | removeTree top =>
    rw [IndexEdit.apply, lookup_removeTree] at found
    split at found
    · cases found
    · exact canonical path entry found

theorem built_run (edits : List IndexEdit) :
    Built ws (IndexEdit.run ws edits) ∧ (IndexEdit.run ws edits).Canonical := by
  induction edits using List.reverseRecOn with
  | nil => exact ⟨.empty, fun _ _ found => by cases found⟩
  | append_singleton edits edit ih =>
    rw [IndexEdit.run, List.foldl_append]
    exact ⟨built_apply ih.1 edit, ih.2.apply edit⟩

end CodeIndex

def FileEntry.positions (entry : FileEntry) (name : Text) : List Nat :=
  (entry.symbols.zipIdx.filter fun symbol => symbol.1.name = name).map Prod.snd

namespace FileEntry

variable {entry : FileEntry} {name : Text}

theorem mem_positions {position : Nat} :
    position ∈ entry.positions name ↔ entry.Declares position name := by
  rw [positions, Declares, Option.map_eq_some_iff]
  constructor
  · intro mem
    obtain ⟨⟨symbol, _⟩, among, rfl⟩ := List.mem_map.mp mem
    obtain ⟨within, named⟩ := List.mem_filter.mp among
    exact ⟨symbol, List.mk_mem_zipIdx_iff_getElem?.mp within, of_decide_eq_true named⟩
  · rintro ⟨symbol, found, named⟩
    exact List.mem_map.mpr ⟨(symbol, position), List.mem_filter.mpr
      ⟨List.mk_mem_zipIdx_iff_getElem?.mpr found, decide_eq_true named⟩, rfl⟩

theorem increasing_positions : (entry.positions name).Pairwise (· < ·) := by
  have all : (entry.symbols.zipIdx.map Prod.snd).Pairwise (· < ·) := by
    rw [List.zipIdx_map_snd]
    exact List.pairwise_lt_range'
  exact all.sublist (List.filter_sublist.map Prod.snd)

theorem filterMap_positions : (entry.positions name).filterMap (entry.symbols[·]?) =
    entry.symbols.filter fun symbol => symbol.name = name := by
  have found : ∀ symbol ∈ entry.symbols.zipIdx.filter (fun symbol => symbol.1.name = name),
      entry.symbols[symbol.2]? = some symbol.1 := fun symbol mem =>
    List.mk_mem_zipIdx_iff_getElem?.mp (List.mem_of_mem_filter mem)
  calc
    (entry.positions name).filterMap (entry.symbols[·]?) =
        (entry.symbols.zipIdx.filter fun symbol => symbol.1.name = name).filterMap
          (fun symbol => entry.symbols[symbol.2]?) := List.filterMap_map
    _ = (entry.symbols.zipIdx.filter fun symbol => symbol.1.name = name).filterMap
          (fun symbol => some symbol.1) := List.filterMap_congr found
    _ = (entry.symbols.zipIdx.filter fun symbol => symbol.1.name = name).map Prod.fst :=
      congrFun List.filterMap_eq_map _
    _ = (entry.symbols.zipIdx.map Prod.fst).filter fun symbol => symbol.name = name :=
      (List.filter_map (p := fun symbol : Symbol => decide (symbol.name = name))).symm
    _ = entry.symbols.filter fun symbol => symbol.name = name := by rw [List.zipIdx_map_fst]

end FileEntry

theorem increasing_sortPlaces (places : Finset (Text × Nat)) :
    (sortPlaces places).Pairwise fun first second => toLex first < toLex second := by
  rw [sortPlaces, List.pairwise_map]
  exact (Finset.sortedLT_sort _).pairwise

theorem mem_sortPlaces {places : Finset (Text × Nat)} {place : Text × Nat} :
    place ∈ sortPlaces places ↔ place ∈ places := by
  rw [sortPlaces, List.mem_map]
  constructor
  · rintro ⟨lex, mem, rfl⟩
    obtain ⟨place, among, rfl⟩ := Finset.mem_map.mp ((Finset.mem_sort _).mp mem)
    exact among
  · exact fun mem => ⟨toLex place, (Finset.mem_sort _).mpr (Finset.mem_map_of_mem _ mem), rfl⟩

namespace CodeIndex

variable {ws : Workspace} {index : CodeIndex}

def placesAt (index : CodeIndex) (name path : Text) : List (Text × Nat) :=
  match index.lookup path with
  | none => []
  | some entry => (entry.positions name).map fun position => (path, position)

theorem mem_placesAt {name path : Text} {place : Text × Nat} :
    place ∈ index.placesAt name path ↔
      place.1 = path ∧ ∃ entry, index.lookup path = some entry ∧ entry.Declares place.2 name := by
  obtain ⟨own, position⟩ := place
  rw [placesAt]
  cases found : index.lookup path with
  | none => simp
  | some entry => simp [FileEntry.mem_positions, eq_comm, and_comm]

theorem increasing_placesAt (name path : Text) :
    (index.placesAt name path).Pairwise fun first second => toLex first < toLex second := by
  rw [placesAt]
  cases index.lookup path with
  | none => exact .nil
  | some entry =>
    refine List.pairwise_map.mpr (entry.increasing_positions.imp fun before => ?_)
    exact Prod.Lex.toLex_lt_toLex.mpr (.inr ⟨rfl, before⟩)

theorem increasing_flatMap_placesAt (name : Text) :
    (index.paths.sort.flatMap (index.placesAt name)).Pairwise
      fun first second => toLex first < toLex second := by
  rw [List.pairwise_flatMap]
  refine ⟨fun path _ => increasing_placesAt name path, ?_⟩
  refine (Finset.sortedLT_sort index.paths).pairwise.imp fun before first mem second mem' => ?_
  rw [← (mem_placesAt.mp mem).1, ← (mem_placesAt.mp mem').1] at before
  exact Prod.Lex.toLex_lt_toLex.mpr (.inl before)

theorem sortPlaces_eq (posted : index.Posted) (name : Text) :
    sortPlaces (index.symbolIndex.places name) =
      index.paths.sort.flatMap (index.placesAt name) := by
  have irreflexive : Std.Irrefl fun first second : Text × Nat => toLex first < toLex second :=
    ⟨fun place => lt_irrefl (toLex place)⟩
  have antisymmetric : Std.Antisymm fun first second : Text × Nat => toLex first < toLex second :=
    ⟨fun _ _ before after => absurd after before.asymm⟩
  refine (increasing_sortPlaces _).eq_of_mem_iff (increasing_flatMap_placesAt name) fun place => ?_
  rw [mem_sortPlaces, posted.listed, List.mem_flatMap]
  constructor
  · rintro ⟨entry, found, declares⟩
    refine ⟨place.1, (Finset.mem_sort _).mpr (mem_paths.mpr ?_), mem_placesAt.mpr ?_⟩
    · rw [found]
      rfl
    · exact ⟨rfl, entry, found, declares⟩
  · rintro ⟨path, -, listed⟩
    obtain ⟨rfl, entry, found, declares⟩ := mem_placesAt.mp listed
    exact ⟨entry, found, declares⟩

theorem filterMap_placesAt {path : Text} {file : FileEntry} (name : Text)
    (found : index.lookup path = some file) :
    ((index.placesAt name path).filterMap fun place =>
      (index.lookup place.1).bind fun file =>
        file.symbols[place.2]?.map fun symbol => (file, symbol)) =
      (file.symbols.filter fun symbol => symbol.name = name).map fun symbol => (file, symbol) := by
  unfold placesAt
  simp only [found]
  rw [← file.filterMap_positions, List.filterMap_map, List.map_filterMap]
  refine List.filterMap_congr fun position _ => ?_
  rw [Function.comp_apply, found, Option.bind_some]

theorem findSymbols_eq (posted : index.Posted) (canonical : index.Canonical) (name : Text) :
    index.findSymbols name =
      index.paths.sort.flatMap fun path => index.findSymbolsAt path name := by
  rw [findSymbols, indexedSymbols, ← Postings.places, sortPlaces_eq posted,
    List.filterMap_flatMap, List.filter_flatMap, List.map_flatMap]
  refine List.flatMap_congr fun path mem => ?_
  obtain ⟨file, found⟩ := Option.isSome_iff_exists.mp
    (mem_paths.mp ((Finset.mem_sort _).mp mem))
  rw [filterMap_placesAt _ found, findSymbolsAt, get, canonical path file found, ← lookup, found]
  dsimp only
  rw [List.filter_map, List.map_map]
  rfl

end CodeIndex

/-- After any edits of the index every file is kept under its own path, the postings list just
the symbols of the files and no name without one, and the accumulator is the total of the
digests of the files.  So the snapshot id is the same where the paths and hashes are, and a
symbol is found in the whole index where it is found in the files, in the order of their paths. -/
theorem index_represents (ws : Workspace) (edits : List IndexEdit) :
    let index := IndexEdit.run ws edits
    (∀ path entry, index.lookup path = some entry → entry.path = path) ∧
    index.Posted ∧ index.Tallied ws ∧
    (∀ (others : List IndexEdit) (head : Text), (IndexEdit.run ws others).hashAt = index.hashAt →
      (IndexEdit.run ws others).snapshotId ws head = index.snapshotId ws head) ∧
    ∀ name, index.findSymbols name =
      index.paths.sort.flatMap fun path => index.findSymbolsAt path name := by
  intro index
  obtain ⟨built, canonical⟩ := @CodeIndex.built_run ws edits
  refine ⟨index.keyed, built.posted, built.tallied, fun others head same => ?_, ?_⟩
  · exact CodeIndex.snapshotId_of_hashAt built.tallied
      (@CodeIndex.built_run ws others).1.tallied same head
  · exact CodeIndex.findSymbols_eq built.posted canonical

end CodeWeave
