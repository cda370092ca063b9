import CodeWeave.Defs.Index.SnapshotLaws

namespace CodeWeave

theorem dlookup_kreplace {K V : Type} [DecidableEq K] (key name : K) (value : V)
    (entries : List (Sigma fun _ : K => V)) :
    (entries.kreplace name value).dlookup key =
      if key = name then (entries.dlookup key).map fun _ => value else entries.dlookup key := by
  induction entries with
  | nil => simp [List.kreplace, List.lookmap_nil]
  | cons entry rest ih =>
    obtain ⟨own, kept⟩ := entry
    by_cases here : name = own
    · subst here
      have replaced : ((⟨name, kept⟩ :: rest : List (Sigma fun _ : K => V)).kreplace name value) =
          ⟨name, value⟩ :: rest := List.lookmap_cons_some _ _ (if_pos rfl)
      rw [replaced]
      by_cases same : key = name
      · subst same
        simp
      · simp [same]
    · have passed : ((⟨own, kept⟩ :: rest : List (Sigma fun _ : K => V)).kreplace name value) =
          ⟨own, kept⟩ :: rest.kreplace name value := List.lookmap_cons_none _ _ (if_neg here)
      rw [passed]
      by_cases own_key : key = own
      · subst own_key
        simp [Ne.symm here]
      · have below (others : List (Sigma fun _ : K => V)) :
            (⟨own, kept⟩ :: others).dlookup key = others.dlookup key :=
          List.dlookup_cons_ne others ⟨own, kept⟩ own_key
        rw [below, below, ih]

theorem lookup_replace {K V : Type} [DecidableEq K] (key name : K) (value : V) (table : Table K V) :
    (table.replace name value).lookup key =
      if key = name then (table.lookup key).map fun _ => value else table.lookup key :=
  dlookup_kreplace key name value table.entries

def Postings.places (postings : Postings) (name : Text) : Finset (Text × Nat) :=
  (postings.lookup name).getD ∅

def Postings.Inhabited (postings : Postings) : Prop := ∀ name, postings.lookup name ≠ some ∅

def FileEntry.Declares (entry : FileEntry) (position : Nat) (name : Text) : Prop :=
  entry.symbols[position]?.map Symbol.name = some name

theorem FileEntry.mem_names {entry : FileEntry} {position : Nat} {name : Text}
    (declares : entry.Declares position name) : name ∈ entry.symbols.map Symbol.name := by
  obtain ⟨symbol, at_position, rfl⟩ := Option.map_eq_some_iff.mp declares
  exact List.mem_map.mpr ⟨symbol, List.mem_of_getElem? at_position, rfl⟩

namespace CodeIndex

def unlistName (path : Text) (postings : Postings) (name : Text) : Postings :=
  match postings.lookup name with
  | none => postings
  | some entries =>
    let kept := entries.filter fun entry => entry.1 ≠ path
    if kept = ∅ then postings.erase name else postings.replace name kept

def listSymbol (path : Text) (postings : Postings) (symbol : Symbol × Nat) : Postings :=
  let entries := (postings.lookup symbol.1.name).getD ∅
  postings.insert symbol.1.name (Insert.insert (path, symbol.2) entries)

theorem unlistSymbols_eq (removed : FileEntry) (postings : Postings) :
    unlistSymbols removed postings =
      (removed.symbols.map Symbol.name).dedup.foldl (unlistName removed.path) postings := rfl

theorem listSymbols_eq (entry : FileEntry) (postings : Postings) :
    listSymbols entry postings = entry.symbols.zipIdx.foldl (listSymbol entry.path) postings := rfl

theorem lookup_unlistName (path : Text) (postings : Postings) (name key : Text) :
    (unlistName path postings name).lookup key =
      if key = name then
        ((postings.lookup key).map fun entries => entries.filter fun entry => entry.1 ≠ path).filter
          fun kept => kept ≠ ∅
      else postings.lookup key := by
  unfold unlistName
  by_cases same : key = name
  · subst same
    rw [if_pos rfl]
    cases found : postings.lookup key with
    | none => exact found
    | some entries =>
      by_cases empty : (entries.filter fun entry => entry.1 ≠ path) = ∅
      · simp only [empty, if_true, AList.lookup_erase, Option.map_some, Option.filter_some]
        rfl
      · simp only [empty, if_false, lookup_replace, if_true, found, Option.map_some,
          Option.filter_some, ne_eq, not_false_iff, decide_true]
  · rw [if_neg same]
    split
    · rfl
    · dsimp only
      split
      · exact AList.lookup_erase_ne same
      · rw [lookup_replace, if_neg same]

theorem mem_places_unlistName (path : Text) (postings : Postings) (name key : Text)
    (place : Text × Nat) : place ∈ (unlistName path postings name).places key ↔
      place ∈ postings.places key ∧ (key = name → place.1 ≠ path) := by
  rw [Postings.places, Postings.places, lookup_unlistName]
  by_cases same : key = name
  · rw [if_pos same]
    cases postings.lookup key with
    | none => simp
    | some entries =>
      by_cases empty : (entries.filter fun entry => entry.1 ≠ path) = ∅
      · have gone : place ∉ entries.filter fun entry => entry.1 ≠ path := by simp [empty]
        simp only [Option.map_some, empty, Option.filter_some]
        simp only [Finset.mem_filter] at gone
        simpa [same] using gone
      · rw [Option.map_some, Option.filter_some, if_pos (decide_eq_true empty), Option.getD_some,
          Option.getD_some, Finset.mem_filter]
        simp [same]
  · simp [same]

theorem mem_places_foldl_unlistName (path : Text) (names : List Text) (postings : Postings)
    (key : Text) (place : Text × Nat) :
    place ∈ (names.foldl (unlistName path) postings).places key ↔
      place ∈ postings.places key ∧ (key ∈ names → place.1 ≠ path) := by
  induction names generalizing postings with
  | nil => simp
  | cons name rest ih =>
    rw [List.foldl_cons, ih, mem_places_unlistName, and_assoc, List.mem_cons, or_imp]

theorem inhabited_foldl_unlistName {path : Text} {names : List Text} {postings : Postings}
    (inhabited : postings.Inhabited) : (names.foldl (unlistName path) postings).Inhabited := by
  induction names generalizing postings with
  | nil => exact inhabited
  | cons name rest ih =>
    apply ih
    intro key empty
    rw [lookup_unlistName] at empty
    split at empty
    · rw [Option.filter_eq_some_iff] at empty
      exact of_decide_eq_true empty.2 rfl
    · exact inhabited key empty

theorem mem_places_listSymbol (path : Text) (postings : Postings) (symbol : Symbol × Nat)
    (key : Text) (place : Text × Nat) :
    place ∈ (listSymbol path postings symbol).places key ↔
      place ∈ postings.places key ∨ key = symbol.1.name ∧ place = (path, symbol.2) := by
  rw [Postings.places, listSymbol]
  by_cases same : key = symbol.1.name
  · subst same
    rw [AList.lookup_insert, Option.getD_some, Finset.mem_insert, or_comm, ← Postings.places]
    simp
  · rw [AList.lookup_insert_ne same, ← Postings.places]
    simp [same]

theorem mem_places_foldl_listSymbol (path : Text) (symbols : List (Symbol × Nat))
    (postings : Postings) (key : Text) (place : Text × Nat) :
    place ∈ (symbols.foldl (listSymbol path) postings).places key ↔
      place ∈ postings.places key ∨ ∃ symbol ∈ symbols, key = symbol.1.name ∧
        place = (path, symbol.2) := by
  induction symbols generalizing postings with
  | nil => simp
  | cons symbol rest ih =>
    rw [List.foldl_cons, ih, mem_places_listSymbol, or_assoc, List.exists_mem_cons_iff]

theorem inhabited_foldl_listSymbol {path : Text} {symbols : List (Symbol × Nat)}
    {postings : Postings} (inhabited : postings.Inhabited) :
    (symbols.foldl (listSymbol path) postings).Inhabited := by
  induction symbols generalizing postings with
  | nil => exact inhabited
  | cons symbol rest ih =>
    apply ih
    intro key empty
    rw [listSymbol] at empty
    by_cases same : key = symbol.1.name
    · subst same
      rw [AList.lookup_insert, Option.some.injEq] at empty
      exact Finset.insert_ne_empty _ _ empty
    · rw [AList.lookup_insert_ne same] at empty
      exact inhabited key empty

theorem mem_places_listSymbols (entry : FileEntry) (postings : Postings) (key : Text)
    (place : Text × Nat) : place ∈ (listSymbols entry postings).places key ↔
      place ∈ postings.places key ∨ place.1 = entry.path ∧ entry.Declares place.2 key := by
  rw [listSymbols_eq, mem_places_foldl_listSymbol]
  apply or_congr_right
  obtain ⟨path, position⟩ := place
  constructor
  · rintro ⟨⟨symbol, position'⟩, mem, rfl, same⟩
    cases same
    exact ⟨rfl, by rw [FileEntry.Declares, List.mk_mem_zipIdx_iff_getElem?.mp mem]; rfl⟩
  · rintro ⟨rfl, declares⟩
    obtain ⟨symbol, at_position, rfl⟩ := Option.map_eq_some_iff.mp declares
    exact ⟨(symbol, position), List.mk_mem_zipIdx_iff_getElem?.mpr at_position, rfl, rfl⟩

structure Posted (index : CodeIndex) : Prop where
  inhabited : index.symbolIndex.Inhabited
  listed : ∀ name place, place ∈ index.symbolIndex.places name ↔
    ∃ entry, index.lookup place.1 = some entry ∧ entry.Declares place.2 name

theorem posted_empty : Posted .empty where
  inhabited _ found := by cases found
  listed name place := by
    constructor
    · intro mem
      exact absurd mem (Finset.notMem_empty place)
    · rintro ⟨entry, found, -⟩
      cases found

variable (ws : Workspace) {index : CodeIndex}

theorem Posted.remove (posted : index.Posted) (path : Text) : (index.remove ws path).2.Posted := by
  cases found : index.files.lookup path with
  | none =>
    have same : (index.remove ws path).2 = index := by
      rw [CodeIndex.remove]
      split
      · rfl
      · next removed eq => rw [found] at eq; cases eq
    rw [same]
    exact posted
  | some removed =>
    have postings : (index.remove ws path).2.symbolIndex =
        unlistSymbols removed index.symbolIndex := by
      rw [CodeIndex.remove]
      split
      · next eq => rw [found] at eq; cases eq
      · next other eq => rw [found] at eq; cases eq; rfl
    have own : removed.path = path := index.keyed path removed found
    refine ⟨?_, fun name place => ?_⟩
    · rw [postings, unlistSymbols_eq]
      exact inhabited_foldl_unlistName posted.inhabited
    · rw [postings, unlistSymbols_eq, mem_places_foldl_unlistName, posted.listed, lookup_remove,
        List.mem_dedup, own]
      constructor
      · rintro ⟨⟨entry, here, declares⟩, kept⟩
        refine ⟨entry, ?_, declares⟩
        rw [if_neg, here]
        intro same
        rw [same, lookup, found, Option.some.injEq] at here
        subst here
        exact kept (FileEntry.mem_names declares) same
      · rintro ⟨entry, here, declares⟩
        by_cases same : place.1 = path
        · rw [if_pos same] at here
          cases here
        · rw [if_neg same] at here
          exact ⟨⟨entry, here, declares⟩, fun _ => same⟩

theorem Posted.insert (posted : index.Posted) (entry : FileEntry) :
    (index.insert ws entry).Posted := by
  have removed := posted.remove ws entry.path
  have postings : (index.insert ws entry).symbolIndex =
      listSymbols entry (index.remove ws entry.path).2.symbolIndex := rfl
  refine ⟨?_, fun name place => ?_⟩
  · rw [postings, listSymbols_eq]
    exact inhabited_foldl_listSymbol removed.inhabited
  · rw [postings, mem_places_listSymbols, removed.listed, lookup_remove, lookup_insert]
    by_cases same : place.1 = entry.path
    · simp [same]
    · simp [same]

/-- An index the program has built up from the empty one. -/
inductive Built : CodeIndex → Prop
  | empty : Built .empty
  | insert {index : CodeIndex} (entry : FileEntry) : Built index → Built (index.insert ws entry)
  | remove {index : CodeIndex} (path : Text) : Built index → Built (index.remove ws path).2

variable {ws}

theorem Built.tallied (built : Built ws index) : index.Tallied ws := by
  induction built with
  | empty => exact tallied_empty ws
  | insert entry _ ih => exact ih.insert entry
  | remove path _ ih => exact ih.remove path

theorem Built.posted (built : Built ws index) : index.Posted := by
  induction built with
  | empty => exact posted_empty
  | insert entry _ ih => exact ih.insert ws entry
  | remove path _ ih => exact ih.remove ws path

theorem Built.removeTree (built : Built ws index) (path : Text) :
    Built ws (index.removeTree ws path).2 := by
  rw [CodeIndex.removeTree]
  generalize index.files.keys.filter (fun candidate => AtOrBelow path candidate) = removed
  induction removed generalizing index with
  | nil => exact built
  | cons key rest ih => exact ih (built.remove key)

theorem Posted.lookup_congr {first second : CodeIndex} (posted : first.Posted)
    (posted' : second.Posted) (same : first.lookup = second.lookup) (name : Text) :
    first.symbolIndex.lookup name = second.symbolIndex.lookup name := by
  have places : first.symbolIndex.places name = second.symbolIndex.places name := by
    ext place
    rw [posted.listed, posted'.listed, same]
  have inFirst := posted.inhabited name
  have inSecond := posted'.inhabited name
  rw [Postings.places, Postings.places] at places
  cases found : first.symbolIndex.lookup name with
  | none =>
    cases found' : second.symbolIndex.lookup name with
    | none => rfl
    | some entries =>
      rw [found, found'] at places
      exact absurd (by rw [found', ← show ∅ = entries from places]) inSecond
  | some entries =>
    cases found' : second.symbolIndex.lookup name with
    | none =>
      rw [found, found'] at places
      exact absurd (by rw [found, show entries = ∅ from places]) inFirst
    | some others =>
      rw [found, found'] at places
      rw [show entries = others from places]

end CodeIndex

section

variable {ws : Workspace} {index : CodeIndex}

theorem Effect.built (built : index.Built ws) (effect : Effect) :
    (effect.run ws index).Built ws := by
  cases effect with
  | skip => exact built
  | removeTree path => exact built.removeTree path
  | insert entry => exact built.insert entry

theorem Workspace.built_refreshedIndex (disk : Disk) (faults : ReadFaults) (paths : List PathBuf)
    (built : index.Built ws) : (ws.refreshedIndex disk faults paths index).Built ws := by
  rw [refreshedIndex]
  generalize ws.refreshed disk faults paths = refreshed
  induction refreshed generalizing index with
  | nil => exact built
  | cons path rest ih => exact ih (Effect.built built _)

end

end CodeWeave
