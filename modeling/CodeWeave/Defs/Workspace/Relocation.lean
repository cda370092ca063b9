import CodeWeave.Defs.Index.RefreshTruth
import CodeWeave.Defs.Index.SnapshotLaws
import CodeWeave.Defs.Workspace.Origins

/-! One tree below two roots.  A refresh and a walk ask the names of the whole path, so
a root that lies below a directory such as `build` hides every file in it. -/

namespace CodeWeave

open Overwrite

theorem mem_joinSegments {parts : List Text} {c : Char} (mem : c ∈ joinSegments parts) :
    c = '/' ∨ ∃ part ∈ parts, c ∈ part := by
  induction parts with
  | nil => cases mem
  | cons first rest ih =>
    cases rest with
    | nil =>
      rw [joinSegments, List.intercalate_singleton] at mem
      exact .inr ⟨first, List.mem_cons_self, mem⟩
    | cons next rest =>
      rw [joinSegments_cons_cons, List.mem_append, List.mem_cons] at mem
      rcases mem with inFirst | slash | later
      · exact .inr ⟨first, List.mem_cons_self, inFirst⟩
      · exact .inl slash
      · rcases ih later with slash | ⟨part, inRest, inPart⟩
        · exact .inl slash
        · exact .inr ⟨part, List.mem_cons_of_mem _ inRest, inPart⟩

theorem segments_normalizePathText_nil {text : Text} (empty : segments text = []) :
    segments (normalizePathText text) = [] := by
  have noBackslash : '\\' ∉ text := by
    intro mem
    have joined : '\\' ∈ joinSegments (text.splitOn '/') := by
      rwa [joinSegments, List.intercalate_splitOn]
    rcases mem_joinSegments joined with slash | ⟨part, inText, inPart⟩
    · cases slash
    · have kept : part ∈ segments text := by
        refine List.mem_filter.mpr ⟨inText, ?_⟩
        have nonempty : part ≠ [] := List.ne_nil_of_mem inPart
        have notDot : part ≠ ['.'] := by rintro rfl; simp at inPart
        simp [nonempty, notDot]
      rw [empty] at kept
      cases kept
  rw [normalizePathText_eq_trim noBackslash, segments_trimDotSlash, empty]

namespace Workspace

variable (ws : Workspace)

/-- The workspace with its tree below another root. -/
def rooted (root : List Text) : Workspace := { ws with root := root }

/-- A component of the root's own path is one of the built-in ignored names. -/
def Hidden (root : List Text) : Prop := root.any ignoredPathComponent = true

instance (root : List Text) : Decidable (Hidden root) := inferInstanceAs (Decidable (_ = _))

section

variable (root : List Text) {text : Text} (named : segments text ≠ [])

include named

theorem fileName_rooted :
    (PathBuf.below text).fileName root = (PathBuf.below text).fileName [] := by
  obtain ⟨init, last, split⟩ := (List.eq_nil_or_concat (segments text)).resolve_left named
  simp [PathBuf.fileName, PathBuf.components, split]

theorem excludedDir_rooted :
    (ws.rooted root).excludedDir (.below text) = (ws.rooted []).excludedDir (.below text) := by
  simp only [excludedDir, rooted, fileName_rooted root named]

theorem excludedPath_rooted : (ws.rooted root).excludedPath (.below text) =
    (root.any ignoredPathComponent || (ws.rooted []).excludedPath (.below text)) := by
  simp only [excludedPath, rooted, fileName_rooted root named, PathBuf.components, List.any_append,
    List.nil_append]
  cases root.any ignoredPathComponent
  · rfl
  · simp

end

theorem refreshEffect_rooted (root : List Text) (disk : Disk) (faults : ReadFaults)
    (text : Text) : (ws.rooted root).refreshEffect disk faults (.below text) =
      match (ws.rooted []).refreshEffect disk faults (.below text) with
      | .ok (.removeTree path) => .ok (.removeTree path)
      | outcome => if Hidden root then .ok .skip else outcome := by
  simp only [refreshEffect]
  by_cases blank : (PathBuf.below text).relative = [] ∨ (PathBuf.below text).relative = ['.']
  · simp only [if_pos blank, ite_self]
  simp only [if_neg blank]
  cases new : RelPath.new (PathBuf.below text).relative with
  | error error => simp only [ite_self]
  | ok file =>
    cases regular : disk.isRegularFile file with
    | false => simp only [regular, Bool.not_false, if_true]
    | true =>
      have named : segments text ≠ [] := by
        intro empty
        have root : file.components = [] := by
          rw [RelPath.components, RelPath.new_text new, normalizePathText_relative]
          exact segments_normalizePathText_nil empty
        rw [Disk.isRegularFile, root] at regular
        cases regular
      have ignored : (ws.rooted root).isIgnored (.below text) false =
          (ws.rooted []).isIgnored (.below text) false := rfl
      have read : (ws.rooted root).readEntry disk faults (.below text) ∅ =
          (ws.rooted []).readEntry disk faults (.below text) ∅ := rfl
      simp only [regular, Bool.not_true, Bool.false_eq_true, if_false, ignored, read,
        ws.excludedPath_rooted root named]
      cases watched : (ws.rooted []).isIgnored (.below text) false with
      | true => simp only [Bool.true_or, if_true, ite_self]
      | false =>
        simp only [Bool.false_or, Hidden]
        cases (ws.rooted []).excludedPath (.below text) with
        | true =>
          simp only [Bool.or_true, if_true]
          exact (ite_self _).symm
        | false =>
          simp only [Bool.or_false, Bool.false_eq_true, if_false]
          cases (ws.rooted []).readEntry disk faults (.below text) ∅ with
          | error error => rfl
          | ok found => cases found <;> rfl

section

variable {root : List Text} {disk : Disk} {faults : ReadFaults} {text : Text}

theorem effectOf_shown (shown : ¬Hidden root) :
    (ws.rooted root).effectOf disk faults (.below text) =
      (ws.rooted []).effectOf disk faults (.below text) := by
  rw [effectOf, effectOf, refreshEffect_rooted]
  simp only [if_neg shown]
  cases (ws.rooted []).refreshEffect disk faults (.below text) with
  | error error => rfl
  | ok effect => cases effect <;> rfl

theorem readable_rooted (reads : (ws.rooted []).readable disk faults (.below text) = true) :
    (ws.rooted root).readable disk faults (.below text) = true := by
  rw [readable, refreshEffect_rooted]
  rw [readable] at reads
  revert reads
  cases (ws.rooted []).refreshEffect disk faults (.below text) with
  | error error => intro reads; cases reads
  | ok effect =>
    intro _
    cases effect with
    | removeTree path => rfl
    | skip => simp only [ite_self]; rfl
    | insert entry => simp only; split <;> rfl

theorem effectOf_hidden (hidden : Hidden root) (entry : FileEntry) :
    (ws.rooted root).effectOf disk faults (.below text) ≠ .insert entry := by
  rw [effectOf, refreshEffect_rooted]
  simp only [if_pos hidden]
  cases (ws.rooted []).refreshEffect disk faults (.below text) with
  | error error =>
    intro inserts
    cases inserts
  | ok effect =>
    intro inserts
    cases effect <;> cases inserts

end

end Workspace

def Disk.WellNamed (disk : Disk) : Prop :=
  ∀ parts ∈ disk.nodes.keys, ∀ name ∈ parts, name ≠ [] ∧ name ≠ ['.'] ∧ '/' ∉ name

instance (disk : Disk) : Decidable disk.WellNamed :=
  inferInstanceAs (Decidable (∀ parts ∈ disk.nodes.keys, ∀ name ∈ parts, _))

theorem Disk.WellNamed.segments_ne {disk : Disk} (named : disk.WellNamed) {file entry : List Text}
    (mem : file ∈ disk.nodes.keys) (above : entry <+: file) (nonempty : entry ≠ []) :
    segments (joinSegments entry) ≠ [] := by
  rw [segments_joinSegments_of fun name inEntry => named file mem name (above.subset inEntry)]
  exact nonempty

namespace Workspace

section

variable (ws : Workspace) {root : List Text} {disk : Disk} (named : disk.WellNamed)

include named

theorem walked_shown (shown : ¬Hidden root) {scanRoot file : List Text} {respectIgnores : Bool}
    (mem : file ∈ disk.nodes.keys) :
    (ws.rooted root).walked disk scanRoot respectIgnores file =
      (ws.rooted []).walked disk scanRoot respectIgnores file := by
  have enters : ∀ entry ∈ file.inits, ∀ isDir, entry ≠ [] →
      (ws.rooted root).walkEntry respectIgnores entry isDir =
        (ws.rooted []).walkEntry respectIgnores entry isDir := by
    intro entry inInits isDir nonempty
    have parts := named.segments_ne mem ((List.mem_inits _ _).mp inInits) nonempty
    rw [walkEntry, pathOf, ws.excludedDir_rooted root parts]
    rfl
  by_cases top : file = []
  · simp [walked, top]
  have last := named.segments_ne mem (List.prefix_refl file) top
  have included : (ws.rooted root).excludedPath (pathOf file) =
      (ws.rooted []).excludedPath (pathOf file) := by
    rw [Hidden, Bool.not_eq_true] at shown
    rw [pathOf, ws.excludedPath_rooted root last, shown, Bool.false_or]
  rw [walked, walked, included, Bool.eq_iff_iff]
  simp only [Bool.and_eq_true, List.all_eq_true]
  refine and_congr_left' (and_congr_left' (and_congr_right fun _ => forall₂_congr ?_))
  intro entry inInits
  by_cases nonempty : entry = []
  · simp [nonempty]
  · rw [enters entry inInits false nonempty, enters entry inInits true nonempty]

theorem walked_hidden (hidden : Hidden root) {scanRoot file : List Text} {respectIgnores : Bool}
    (mem : file ∈ disk.nodes.keys) :
    (ws.rooted root).walked disk scanRoot respectIgnores file = false := by
  by_cases top : file = []
  · simp [walked, top]
  have last := named.segments_ne mem (List.prefix_refl file) top
  have excluded : (ws.rooted root).excludedPath (pathOf file) = true := by
    rw [Hidden] at hidden
    rw [pathOf, ws.excludedPath_rooted root last, hidden, Bool.true_or]
  rw [walked, excluded, Bool.not_true, Bool.and_false, Bool.false_and]

theorem scanDirectory_shown (shown : ¬Hidden root) (faults : ReadFaults) (scanRoot : List Text)
    (respectIgnores : Bool) (cache : SymbolCache) (index : CodeIndex) :
    (ws.rooted root).scanDirectory disk faults scanRoot respectIgnores cache index =
      (ws.rooted []).scanDirectory disk faults scanRoot respectIgnores cache index := by
  have files : disk.nodes.keys.filter ((ws.rooted root).walked disk scanRoot respectIgnores) =
      disk.nodes.keys.filter ((ws.rooted []).walked disk scanRoot respectIgnores) :=
    List.filter_congr fun file mem => ws.walked_shown named shown mem
  rw [scanDirectory, files]
  rfl

theorem scanDirectory_hidden (hidden : Hidden root) (faults : ReadFaults) (scanRoot : List Text)
    (respectIgnores : Bool) (cache : SymbolCache) (index : CodeIndex) :
    (ws.rooted root).scanDirectory disk faults scanRoot respectIgnores cache index = .ok index := by
  have files : disk.nodes.keys.filter ((ws.rooted root).walked disk scanRoot respectIgnores) = [] :=
    List.filter_eq_nil_iff.mpr fun file mem => by
      rw [ws.walked_hidden named hidden mem]
      exact Bool.false_ne_true
  rw [scanDirectory, files]
  rfl

theorem scan_shown (shown : ¬Hidden root) (io : ScanIo) :
    (ws.rooted root).scan disk io = (ws.rooted []).scan disk io := by
  have artifacts : ∀ texts index, (ws.rooted root).scanArtifacts disk io ∅ texts index =
      (ws.rooted []).scanArtifacts disk io ∅ texts index := by
    intro texts
    induction texts with
    | nil => exact fun _ => rfl
    | cons text rest ih =>
      intro index
      simp only [scanArtifacts, ih, ws.scanDirectory_shown named shown]
  simp only [scan, scanWorkspace, ws.scanDirectory_shown named shown, artifacts]
  rfl

theorem scan_hidden (hidden : Hidden root) {io : ScanIo} {index : CodeIndex}
    (ok : (ws.rooted root).scan disk io = .ok index) : index = .empty := by
  have artifacts : ∀ texts before after, (ws.rooted root).scanArtifacts disk io ∅ texts before =
      .ok after → after = before := by
    intro texts
    induction texts with
    | nil => exact fun before after ok => (Except.ok.inj ok).symm
    | cons text rest ih =>
      intro before after ok
      rw [scanArtifacts] at ok
      split at ok
      · cases ok
      · split at ok
        · exact ih before after ok
        · cases ok
        · cases ok
        · rw [ws.scanDirectory_hidden named hidden] at ok
          exact ih before after ok
  rw [scan, scanWorkspace, ws.scanDirectory_hidden named hidden] at ok
  exact artifacts _ _ _ ok

end

end Workspace

/-- One refresh: the tree it finds, the reads that fail, and the set of its paths, below
the root. -/
structure Round where
  disk : Disk
  faults : ReadFaults
  paths : List Text

def Round.absolute (round : Round) : List PathBuf := round.paths.map .below

-- The paths come in the order of a hash set, which is any order.
inductive AfterRounds (ws : Workspace) : List Round → CodeIndex → CodeIndex → Prop
  | nil (index : CodeIndex) : AfterRounds ws [] index index
  | snoc {rounds : List Round} {round : Round} {index before : CodeIndex} {order : List PathBuf}
      {reported : List Text} (earlier : AfterRounds ws rounds index before)
      (arranged : order.Perm round.absolute)
      (ok : (ws.refreshPaths round.disk round.faults order before).1 = .ok reported) :
      AfterRounds ws (rounds ++ [round]) index
        (ws.refreshPaths round.disk round.faults order before).2

structure Matches (ws : Workspace) (index other : CodeIndex) : Prop where
  hashes : other.hashAt = index.hashAt
  snapshots : ∀ head, other.snapshotId ws head = index.snapshotId ws head

namespace Workspace

variable (ws : Workspace)

/-- A scan below either root and the same refreshes afterwards give matching indexes. -/
def RootIndependent (root root' : List Text) (disk : Disk) (io : ScanIo) (rounds : List Round) :
    Prop :=
  ∀ index index', (ws.rooted root).scan disk io = .ok index →
    (ws.rooted root').scan disk io = .ok index' → ∀ done, done <+: rounds → ∀ last last',
    AfterRounds (ws.rooted root) done index last → AfterRounds (ws.rooted root') done index' last' →
    Matches ws last last'

def NothingToIndex (disk : Disk) (io : ScanIo) (rounds : List Round) : Prop :=
  (∀ entry, ¬Walks (ws.rooted []) disk io ∅ entry) ∧
    ∀ round ∈ rounds, ∀ path ∈ round.absolute, ∀ entry, (ws.rooted []).excludes path = false →
      (ws.rooted []).readEntry round.disk round.faults path ∅ ≠ .ok (some entry)

/-- No round has a file to index in the tree of another of its paths that is no regular
file. -/
def Ordered (rounds : List Round) : Prop :=
  ∀ round ∈ rounds, ∀ top ∈ round.absolute, ∀ path ∈ round.absolute, ∀ entry,
    round.disk.Fileless top → (ws.rooted []).excludes path = false →
    (ws.rooted []).readEntry round.disk round.faults path ∅ = .ok (some entry) →
    ¬AtOrBelow top.relative path.relative

end Workspace

section

variable {ws : Workspace} {round : Round} {rounds : List Round} {index last : CodeIndex}

theorem AfterRounds.last_round (follows : AfterRounds ws (rounds ++ [round]) index last) :
    ∃ before order reported, AfterRounds ws rounds index before ∧ order.Perm round.absolute ∧
      (ws.refreshPaths round.disk round.faults order before).1 = .ok reported ∧
      last = (ws.refreshPaths round.disk round.faults order before).2 := by
  generalize whole : rounds ++ [round] = all at follows
  cases follows with
  | nil => simp at whole
  | snoc earlier arranged ok =>
    obtain ⟨rfl, same⟩ := List.append_inj' whole rfl
    cases same
    exact ⟨_, _, _, earlier, arranged, ok, rfl⟩

theorem AfterRounds.tallied (follows : AfterRounds ws rounds index last)
    (tallied : index.Tallied ws) : last.Tallied ws := by
  induction follows with
  | nil => exact tallied
  | snoc earlier arranged ok ih =>
    rw [ws.refreshPaths_snd]
    exact ws.tallied_refreshedIndex _ _ _ (ih tallied)

theorem AfterRounds.exists_of_reads (reads : ∀ round ∈ rounds, ∀ path ∈ round.absolute,
    ws.readable round.disk round.faults path = true) :
    ∃ last, AfterRounds ws rounds index last := by
  induction rounds using List.reverseRecOn with
  | nil => exact ⟨index, .nil index⟩
  | append_singleton rounds round ih =>
    obtain ⟨before, earlier⟩ := ih fun other mem => reads other (List.mem_append_left _ mem)
    have ok := (ws.refreshPaths_isOk round.disk round.faults round.absolute before).mpr
      (reads round (by simp))
    cases refreshed : (ws.refreshPaths round.disk round.faults round.absolute before).1 with
    | error error => rw [refreshed] at ok; cases ok
    | ok reported => exact ⟨_, .snoc earlier (.refl _) refreshed⟩

theorem AfterRounds.snoc_of_reads {order : List PathBuf}
    (earlier : AfterRounds ws rounds index last) (arranged : order.Perm round.absolute)
    (reads : ∀ path ∈ round.absolute, ws.readable round.disk round.faults path = true) :
    AfterRounds ws (rounds ++ [round]) index
      (ws.refreshedIndex round.disk round.faults order last) := by
  have ok := (ws.refreshPaths_isOk round.disk round.faults order last).mpr
    fun path mem => reads path (arranged.mem_iff.mp mem)
  rw [← ws.refreshPaths_snd]
  cases refreshed : (ws.refreshPaths round.disk round.faults order last).1 with
  | error error => rw [refreshed] at ok; cases ok
  | ok reported => exact .snoc earlier arranged refreshed

end

namespace Workspace

section

variable (ws : Workspace) {root root' : List Text} {rounds : List Round}
  {index last last' : CodeIndex}

theorem lookup_round (shown : ¬Hidden root) {round : Round} {order : List PathBuf}
    (arranged : order.Perm round.absolute) {reported : List Text} {before : CodeIndex}
    (ok : ((ws.rooted root).refreshPaths round.disk round.faults order before).1 = .ok reported) :
    ((ws.rooted root).refreshPaths round.disk round.faults order before).2.lookup =
      applyAll (order.map fun path =>
        ((ws.rooted []).effectOf round.disk round.faults path).patch) before.lookup := by
  have reads := ((ws.rooted root).refreshPaths_isOk round.disk round.faults order before).mp
    (by rw [ok]; rfl)
  rw [refreshPaths_snd, lookup_refreshedIndex, patches, (ws.rooted root).refreshed_eq_self reads]
  congr 1
  refine List.map_congr_left fun path mem => ?_
  obtain ⟨text, -, rfl⟩ := List.mem_map.mp (arranged.mem_iff.mp mem)
  rw [ws.effectOf_shown shown]

theorem lookup_afterRounds (shown : ¬Hidden root) (shown' : ¬Hidden root')
    (ordered : ws.Ordered rounds) (reads : ∀ round ∈ rounds, ∀ path ∈ round.absolute,
      (ws.rooted []).readable round.disk round.faults path = true)
    (follows : AfterRounds (ws.rooted root) rounds index last)
    (follows' : AfterRounds (ws.rooted root') rounds index last') : last.lookup = last'.lookup := by
  induction follows generalizing last' with
  | nil =>
    generalize none_left : ([] : List Round) = all at follows'
    cases follows' with
    | nil => rfl
    | snoc => simp at none_left
  | snoc earlier arranged ok ih =>
    rename_i rounds round index before order reported
    obtain ⟨before', order', reported', earlier', arranged', ok', rfl⟩ := follows'.last_round
    have here : round ∈ rounds ++ [round] := by simp
    have same := ih (fun other mem => ordered other (List.mem_append_left _ mem))
      (fun other mem => reads other (List.mem_append_left _ mem)) earlier'
    have unshadowed : (ws.rooted []).Unshadowed round.disk round.faults order := by
      intro top topMem path mem entry fileless inserts
      have found := (ws.rooted []).effectOf_insert_iff.mp inserts
      exact ordered round here top (arranged.mem_iff.mp topMem) path (arranged.mem_iff.mp mem) entry
        fileless found.1 found.2
    have agree := (ws.rooted []).agree_patches unshadowed
      fun path mem => reads round here path (arranged.mem_iff.mp mem)
    rw [ws.lookup_round shown arranged ok, ws.lookup_round shown' arranged' ok', same]
    exact agree.applyAll_perm ((arranged.trans arranged'.symm).map _) _

theorem refreshedIndex_hidden (hidden : Hidden root) {disk : Disk} {faults : ReadFaults}
    {paths : List PathBuf} (below : ∀ path ∈ paths, ∃ text, path = .below text) :
    (ws.rooted root).refreshedIndex disk faults paths .empty = .empty := by
  have refreshed : ∀ path ∈ (ws.rooted root).refreshed disk faults paths,
      ∃ text, path = .below text :=
    fun path mem => below path ((List.takeWhile_prefix _).subset mem)
  rw [refreshedIndex]
  clear below
  generalize (ws.rooted root).refreshed disk faults paths = paths at refreshed
  induction paths with
  | nil => rfl
  | cons path rest ih =>
    obtain ⟨text, rfl⟩ := refreshed path List.mem_cons_self
    have stays : ((ws.rooted root).effectOf disk faults (.below text)).run
        (ws.rooted root) .empty = .empty := by
      cases effect : (ws.rooted root).effectOf disk faults (.below text) with
      | skip => rfl
      | removeTree path => rfl
      | insert entry => exact absurd effect (ws.effectOf_hidden hidden entry)
    rw [List.foldl_cons, stays]
    exact ih fun path mem => refreshed path (List.mem_cons_of_mem _ mem)

theorem afterRounds_hidden (hidden : Hidden root)
    (follows : AfterRounds (ws.rooted root) rounds index last) (empty : index = .empty) :
    last = .empty := by
  induction follows with
  | nil => exact empty
  | snoc earlier arranged ok ih =>
    rw [refreshPaths_snd, ih empty]
    refine ws.refreshedIndex_hidden hidden fun path mem => ?_
    obtain ⟨text, -, same⟩ := List.mem_map.mp (arranged.mem_iff.mp mem)
    exact ⟨text, same.symm⟩

theorem afterRounds_nothing (shown : ¬Hidden root) {done : List Round} (part : done <+: rounds)
    {disk : Disk} {io : ScanIo} (nothing : ws.NothingToIndex disk io rounds)
    (follows : AfterRounds (ws.rooted root) done index last)
    (empty : index.lookup = fun _ => none) : last.lookup = fun _ => none := by
  induction follows with
  | nil => exact empty
  | snoc earlier arranged ok ih =>
    rename_i done round index before order reported
    have before_empty := ih ((List.prefix_append ..).trans part) empty
    funext key
    rw [refreshPaths_snd]
    cases found :
      ((ws.rooted root).refreshedIndex round.disk round.faults order before).lookup key with
    | none => rfl
    | some entry =>
      rcases origin_of_refreshedIndex found with earlier | ⟨path, mem, inserts⟩
      · rw [before_empty] at earlier
        cases earlier
      · have inRound := arranged.mem_iff.mp mem
        obtain ⟨text, -, rfl⟩ := List.mem_map.mp inRound
        rw [ws.effectOf_shown shown, effectOf_insert_iff] at inserts
        exact absurd inserts.2 (nothing.2 round (part.subset (by simp)) _ inRound entry inserts.1)

end

end Workspace

theorem Matches.of_lookup {ws : Workspace} {index other : CodeIndex} (tallied : index.Tallied ws)
    (tallied' : other.Tallied ws) (same : index.lookup = other.lookup) :
    Matches ws index other := by
  have hashes : other.hashAt = index.hashAt := by
    funext key
    rw [CodeIndex.hashAt, CodeIndex.hashAt, same]
  exact ⟨hashes, fun head => CodeIndex.snapshotId_of_hashAt tallied tallied' hashes head⟩

theorem Matches.symm {ws : Workspace} {index other : CodeIndex} (same : Matches ws index other) :
    Matches ws other index :=
  ⟨same.hashes.symm, fun head => (same.snapshots head).symm⟩

theorem exists_order_ending {A : Type} [DecidableEq A] {items : List A} {item : A}
    (mem : item ∈ items) : ∃ others, (others ++ [item]).Perm items :=
  ⟨items.erase item, (List.perm_append_singleton ..).trans (List.perm_cons_erase mem).symm⟩

namespace Workspace

section

variable (ws : Workspace) {root root' : List Text} {disk : Disk} {io : ScanIo} {rounds : List Round}
  (named : disk.WellNamed)

theorem lookup_of_last {disk : Disk} {faults : ReadFaults} {others : List PathBuf} {path : PathBuf}
    (reads : ∀ other ∈ others ++ [path], ws.readable disk faults other = true) {key : Text}
    {found : Option FileEntry} (decides : (ws.effectOf disk faults path).patch key = some found)
    (index : CodeIndex) :
    (ws.refreshedIndex disk faults (others ++ [path]) index).lookup key = found := by
  rw [lookup_refreshedIndex, patches, ws.refreshed_eq_self reads, List.map_append]
  exact applyAll_last decides (by simp) _

theorem RootIndependent.symm (independent : ws.RootIndependent root root' disk io rounds) :
    ws.RootIndependent root' root disk io rounds :=
  fun index index' ok ok' done part last last' follows follows' =>
    (independent index' index ok' ok done part last' last follows' follows).symm

theorem lookup_scan_nothing (nothing : ws.NothingToIndex disk io rounds) {index : CodeIndex}
    (ok : (ws.rooted []).scan disk io = .ok index) : index.lookup = fun _ => none := by
  funext key
  cases found : index.lookup key with
  | none => rfl
  | some entry => exact absurd (walks_of_scanWorkspace ok found) (nothing.1 entry)

include named

theorem isOk_scan_hidden (hidden : Hidden root) (scans : ((ws.rooted []).scan disk io).isOk) :
    ((ws.rooted root).scan disk io).isOk := by
  have walks : ∀ scanRoot respectIgnores,
      (ws.rooted root).WalkReads disk io.faults scanRoot respectIgnores := by
    intro scanRoot respectIgnores file mem walked
    rw [ws.walked_hidden named hidden mem] at walked
    cases walked
  refine ((ws.rooted root).scan_isOk disk io).mpr ⟨walks [] true, fun text mem => ?_⟩
  obtain ⟨relative, new, resolves⟩ := (((ws.rooted []).scan_isOk disk io).mp scans).2 text mem
  refine ⟨relative, new, resolves.imp_right ?_⟩
  rintro ⟨resolved, resolves, -⟩
  exact ⟨resolved, resolves, walks resolved false⟩

variable (scans : ((ws.rooted []).scan disk io).isOk)
  (reads : ∀ round ∈ rounds, ∀ path ∈ round.absolute,
    (ws.rooted []).readable round.disk round.faults path = true)

omit named in
include reads in
theorem reads_rooted (root : List Text) : ∀ round ∈ rounds, ∀ path ∈ round.absolute,
    (ws.rooted root).readable round.disk round.faults path = true := by
  intro round inRounds path mem
  have here := reads round inRounds path mem
  obtain ⟨text, -, rfl⟩ := List.mem_map.mp mem
  exact ws.readable_rooted here

include reads

omit named in
theorem matches_after_round (independent : ws.RootIndependent root root' disk io rounds)
    {index index' : CodeIndex} (ok : (ws.rooted root).scan disk io = .ok index)
    (ok' : (ws.rooted root').scan disk io = .ok index') {round : Round} (inRounds : round ∈ rounds)
    {order order' : List PathBuf} (arranged : order.Perm round.absolute)
    (arranged' : order'.Perm round.absolute) :
    ∃ done before before', AfterRounds (ws.rooted root) done index
        ((ws.rooted root).refreshedIndex round.disk round.faults order before) ∧
      Matches ws ((ws.rooted root).refreshedIndex round.disk round.faults order before)
        ((ws.rooted root').refreshedIndex round.disk round.faults order' before') := by
  obtain ⟨pre, post, rfl⟩ := List.append_of_mem inRounds
  have readsAt (root : List Text) := ws.reads_rooted reads root
  have readsPre (root : List Text) : ∀ other ∈ pre, ∀ path ∈ other.absolute,
      (ws.rooted root).readable other.disk other.faults path = true :=
    fun other mem => readsAt root other (List.mem_append_left _ mem)
  obtain ⟨before, earlier⟩ : ∃ last, AfterRounds (ws.rooted root) pre index last :=
    AfterRounds.exists_of_reads (readsPre root)
  obtain ⟨before', earlier'⟩ : ∃ last, AfterRounds (ws.rooted root') pre index' last :=
    AfterRounds.exists_of_reads (readsPre root')
  have follows := earlier.snoc_of_reads arranged (readsAt root round inRounds)
  have follows' := earlier'.snoc_of_reads arranged' (readsAt root' round inRounds)
  exact ⟨_, before, before', follows,
    independent index index' ok ok' _ ⟨post, by simp⟩ _ _ follows follows'⟩

omit named in
theorem lookup_inserted_last (shown : ¬Hidden root) {round : Round} (inRounds : round ∈ rounds)
    {others : List PathBuf} {path : PathBuf} (order : (others ++ [path]).Perm round.absolute)
    {entry : FileEntry} (included : (ws.rooted []).excludes path = false)
    (read : (ws.rooted []).readEntry round.disk round.faults path ∅ = .ok (some entry))
    (before : CodeIndex) :
    ((ws.rooted root).refreshedIndex round.disk round.faults (others ++ [path]) before).lookup
      entry.path = some entry := by
  have mem := order.mem_iff.mp (List.mem_append_right others (List.mem_singleton_self path))
  have inserts : (ws.rooted root).effectOf round.disk round.faults path = .insert entry := by
    have here := (ws.rooted []).effectOf_insert_iff.mpr ⟨included, read⟩
    obtain ⟨text, -, rfl⟩ := List.mem_map.mp mem
    rw [ws.effectOf_shown shown, here]
  refine (ws.rooted root).lookup_of_last (fun other otherMem =>
    ws.reads_rooted reads root round inRounds other (order.mem_iff.mp otherMem)) ?_ before
  rw [inserts]
  exact if_pos rfl

include scans

theorem nothing_of_independent (hidden : Hidden root) (shown : ¬Hidden root')
    (independent : ws.RootIndependent root root' disk io rounds) :
    ws.NothingToIndex disk io rounds := by
  obtain ⟨index, ok⟩ := exists_of_isOk (ws.isOk_scan_hidden named hidden scans)
  obtain ⟨index', ok'⟩ := exists_of_isOk scans
  have empty := ws.scan_hidden named hidden ok
  have okShown := (ws.scan_shown named shown io).trans ok'
  constructor
  · intro entry walks
    have same := independent index index' ok okShown [] List.nil_prefix _ _ (.nil _) (.nil _)
    have listed := isSome_of_walks ok' walks
    have missing := congrFun same.hashes entry.path
    rw [CodeIndex.hashAt, CodeIndex.hashAt, empty] at missing
    rw [Option.map_eq_none_iff.mp missing] at listed
    cases listed
  · intro round inRounds path mem entry included read
    obtain ⟨others, order⟩ := exists_order_ending mem
    obtain ⟨done, before, before', follows, same⟩ :=
      ws.matches_after_round reads independent ok okShown inRounds order order
    have missing := congrFun same.hashes entry.path
    rw [CodeIndex.hashAt, CodeIndex.hashAt, ws.afterRounds_hidden hidden follows empty,
      ws.lookup_inserted_last reads shown inRounds order included read] at missing
    cases missing

theorem ordered_of_independent (shown : ¬Hidden root) (shown' : ¬Hidden root')
    (independent : ws.RootIndependent root root' disk io rounds) : ws.Ordered rounds := by
  obtain ⟨index, ok⟩ := exists_of_isOk scans
  have okAt {root : List Text} (shown : ¬Hidden root) := (ws.scan_shown named shown io).trans ok
  intro round inRounds top topMem path mem entry fileless included read below
  obtain ⟨others, order⟩ := exists_order_ending mem
  obtain ⟨others', order'⟩ := exists_order_ending topMem
  obtain ⟨done, before, before', -, same⟩ := ws.matches_after_round reads independent (okAt shown)
    (okAt shown') inRounds order order'
  have removes : (ws.rooted root').effectOf round.disk round.faults top =
      .removeTree top.relative := by
    obtain ⟨text, -, rfl⟩ := List.mem_map.mp topMem
    rw [ws.effectOf_shown shown']
    rcases (ws.rooted []).refresh_cases (reads round inRounds _ topMem) with
      ⟨effect, -⟩ | ⟨-, present, -⟩ | ⟨other, -, present, -⟩
    · exact effect
    · exact absurd fileless present
    · exact absurd fileless present
  have gone := (ws.rooted root').lookup_of_last (fun other otherMem =>
    ws.reads_rooted reads root' round inRounds other (order'.mem_iff.mp otherMem))
    (show _ = some none by
      rw [removes, ← (ws.rooted []).readEntry_path read] at *
      exact if_pos below) before'
  have kept := congrFun same.hashes entry.path
  rw [CodeIndex.hashAt, CodeIndex.hashAt, gone,
    ws.lookup_inserted_last reads shown inRounds order included read] at kept
  cases kept

omit reads scans in
theorem lookup_hidden_shown (hidden : Hidden root) (shown : ¬Hidden root')
    (nothing : ws.NothingToIndex disk io rounds) {index index' last last' : CodeIndex}
    (ok : (ws.rooted root).scan disk io = .ok index)
    (ok' : (ws.rooted root').scan disk io = .ok index') {done : List Round}
    (part : done <+: rounds) (follows : AfterRounds (ws.rooted root) done index last)
    (follows' : AfterRounds (ws.rooted root') done index' last') : last.lookup = last'.lookup := by
  have empty := ws.lookup_scan_nothing nothing ((ws.scan_shown named shown io).symm.trans ok')
  rw [ws.afterRounds_hidden hidden follows (ws.scan_hidden named hidden ok),
    ws.afterRounds_nothing shown part nothing follows' empty]
  rfl

/-- Two roots give matching indexes just where the names on the way to them hide both or
neither, or there is nothing to index, and no refresh both reads a file and takes out
a tree it lies in. -/
theorem rootIndependent_iff : ws.RootIndependent root root' disk io rounds ↔
    ((Hidden root ↔ Hidden root') ∨ ws.NothingToIndex disk io rounds) ∧
      (¬Hidden root → ¬Hidden root' → ws.Ordered rounds) := by
  constructor
  · intro independent
    refine ⟨?_, fun shown shown' =>
      ws.ordered_of_independent named scans reads shown shown' independent⟩
    by_cases hidden : Hidden root
    · by_cases hidden' : Hidden root'
      · exact .inl (iff_of_true hidden hidden')
      · exact .inr (ws.nothing_of_independent named scans reads hidden hidden' independent)
    · by_cases hidden' : Hidden root'
      · exact .inr (ws.nothing_of_independent named scans reads hidden' hidden independent.symm)
      · exact .inl (iff_of_false hidden hidden')
  · rintro ⟨parity, ordered⟩ index index' ok ok' done part last last' follows follows'
    refine .of_lookup (follows.tallied (Workspace.tallied_scanWorkspace ok))
      (follows'.tallied (Workspace.tallied_scanWorkspace ok')) ?_
    by_cases hidden : Hidden root
    · by_cases hidden' : Hidden root'
      · rw [ws.afterRounds_hidden hidden follows (ws.scan_hidden named hidden ok),
          ws.afterRounds_hidden hidden' follows' (ws.scan_hidden named hidden' ok')]
      · have nothing := parity.resolve_left fun both => hidden' (both.mp hidden)
        exact ws.lookup_hidden_shown named hidden hidden' nothing ok ok' part follows follows'
    · by_cases hidden' : Hidden root'
      · have nothing := parity.resolve_left fun both => hidden (both.mpr hidden')
        have same := ws.lookup_hidden_shown named hidden' hidden nothing ok' ok part follows' follows
        exact same.symm
      · have same : index = index' := by
          rw [ws.scan_shown named hidden, ← ws.scan_shown named hidden', ok'] at ok
          exact (Except.ok.inj ok).symm
        subst same
        exact ws.lookup_afterRounds hidden hidden'
          (fun round mem => ordered hidden hidden' round (part.subset mem))
          (fun round mem => reads round (part.subset mem)) follows follows'

end

end Workspace

namespace Sample

def loneFile (content : Text) : Disk := Disk.holding [(["a".toList], content)]

def home : List Text := ["home".toList]

def srv : List Text := ["srv".toList, "www".toList]

def builds : List Text := ["home".toList, "build".toList]

def rereading : Round := ⟨loneFile "new".toList, fun _ => none, ["a".toList]⟩

end Sample

open Sample Workspace in
theorem rootIndependent_rereading :
    Workspace.plain.RootIndependent home srv (loneFile "old".toList) .calm [rereading] := by
  refine (Workspace.plain.rootIndependent_iff (by decide) (by decide) (by decide)).mpr
    ⟨.inl (by decide), fun _ _ round inRounds top topMem path mem entry fileless => ?_⟩
  rw [List.mem_singleton.mp inRounds] at topMem fileless
  rw [List.mem_singleton.mp topMem] at fileless
  obtain ⟨-, file, new, irregular⟩ := fileless
  cases new
  exact absurd irregular (by decide)

-- The same tree below a directory named `build` is never indexed.
open Sample Workspace in
theorem rootIndependent_fails_below_build :
    (loneFile "old".toList).WellNamed ∧ Workspace.plain.walkIgnored = (fun _ _ => false) ∧
      ¬Workspace.plain.RootIndependent home builds (loneFile "old".toList) .calm [] := by
  refine ⟨by decide, rfl, fun independent => ?_⟩
  obtain ⟨index, ok⟩ := exists_of_isOk
    (by decide : ((Workspace.plain.rooted home).scan (loneFile "old".toList) .calm).isOk = true)
  obtain ⟨index', ok'⟩ := exists_of_isOk
    (by decide : ((Workspace.plain.rooted builds).scan (loneFile "old".toList) .calm).isOk = true)
  have same := independent index index' ok ok' [] List.nil_prefix _ _ (.nil _) (.nil _)
  have listed : ((Workspace.plain.rooted home).scan (loneFile "old".toList) .calm).toOption.bind
      (fun index => index.hashAt "a".toList) = some "old".toList := by decide
  have missing : ((Workspace.plain.rooted builds).scan (loneFile "old".toList) .calm).toOption.bind
      (fun index => index.hashAt "a".toList) = none := by decide
  rw [ok] at listed
  rw [ok'] at missing
  simp only [Except.toOption, Option.bind_some] at listed missing
  rw [same.hashes, listed] at missing
  cases missing

end CodeWeave
