import CodeWeave.Defs.Index.RefreshTruth
import CodeWeave.Defs.Workspace.Origins

/-! Which paths a scan lets into the index, and which a refresh does.  A refresh asks
about the file alone what a walk asks of every directory on the way, and does not ask
the ignore files. -/

namespace CodeWeave

open Runs

namespace Workspace

variable (ws : Workspace)

def admitsFrom (root : List Text) (respectIgnores : Bool) (file : List Text) : Bool :=
  root.isPrefixOf file &&
    file.inits.all (fun entry =>
      entry.length ≤ root.length || ws.walkEntry respectIgnores entry (entry ≠ file)) &&
    !ws.excludedPath (pathOf file) && !ws.isIgnored (pathOf file) false

def Admits (roots : List (List Text)) (path : Text) : Prop :=
  ∃ file, PlainPath file ∧ path = joinSegments file ∧
    (ws.admitsFrom [] true file = true ∨ ∃ root ∈ roots, ws.admitsFrom root false file = true)

/-- An excluded directory excludes what lies below it, as the compiled patterns do. -/
def MatchesBelow : Prop :=
  ∀ dir file isDir, PlainPath file → dir <+: file → dir ≠ file → dir ≠ [] →
    ws.matcher (joinSegments dir) true = true → ws.matcher (joinSegments file) isDir = true

end Workspace

section

variable {ws : Workspace} {disk : Disk} {root file : List Text} {respectIgnores : Bool}

theorem walked_iff_admitsFrom : ws.walked disk root respectIgnores file = true ↔
    ws.admitsFrom root respectIgnores file = true ∧ (disk.fileAt file).isSome = true ∧
      ∀ entry, entry <+: file → root.length < entry.length → entry ≠ file →
        disk.node entry = some .dir := by
  simp only [Workspace.walked, Workspace.admitsFrom, Bool.and_eq_true, List.all_eq_true,
    List.mem_inits, Bool.or_eq_true, decide_eq_true_eq]
  constructor
  · rintro ⟨⟨⟨⟨below, isFile⟩, way⟩, included⟩, watched⟩
    refine ⟨⟨⟨⟨below, fun entry above => (way entry above).imp_right fun passes => ?_⟩, included⟩,
      watched⟩, isFile, fun entry above long other => ?_⟩
    · by_cases same : entry = file
      · rw [if_pos same] at passes
        simpa [same] using passes
      · rw [if_neg same, Bool.and_eq_true] at passes
        simpa [same] using passes.2
    · have passes := (way entry above).resolve_left (by omega)
      rw [if_neg other, Bool.and_eq_true] at passes
      have isDir := passes.1
      split at isDir
      · assumption
      · cases isDir
  · rintro ⟨⟨⟨⟨below, way⟩, included⟩, watched⟩, isFile, dirs⟩
    refine ⟨⟨⟨⟨below, isFile⟩, fun entry above => ?_⟩, included⟩, watched⟩
    rcases way entry above with short | passes
    · exact .inl short
    · by_cases short : entry.length ≤ root.length
      · exact .inl short
      · right
        by_cases same : entry = file
        · rw [if_pos same]
          simpa [same] using passes
        · rw [if_neg same, dirs entry above (by omega) same]
          simpa [same] using passes

theorem walkEntry_of_included (below : ws.MatchesBelow) (plain : PlainPath file)
    (watched : ws.isIgnored (pathOf file) false = false)
    (included : ws.excludedPath (pathOf file) = false) {entry : List Text} (above : entry <+: file)
    (named : entry ≠ [])
    (seen : respectIgnores = false ∨ ws.walkIgnored entry (entry ≠ file) = false) :
    ws.walkEntry respectIgnores entry (entry ≠ file) = true := by
  have fileNamed : file ≠ [] := by
    rintro rfl
    exact named (List.prefix_nil.mp above)
  have plainEntry := plain.of_prefix above
  have clean := (included_pathOf plain included).1
  have cleanEntry : entry.any ignoredPathComponent = false := by
    rw [List.any_eq_false] at clean ⊢
    exact fun name mem => clean name (above.subset mem)
  rw [Workspace.isIgnored_pathOf_eq plain fileNamed, clean, Bool.false_or] at watched
  have unmatched : ws.matcher (joinSegments entry) (entry ≠ file) = false := by
    by_cases same : entry = file
    · simpa [same] using watched
    · rw [Bool.eq_false_iff]
      intro matched
      have further := below entry file false plain above same named (by simpa [same] using matched)
      rw [watched] at further
      cases further
  rw [Workspace.walkEntry, excludedDir_pathOf plainEntry named cleanEntry,
    Workspace.isIgnored_pathOf_eq plainEntry named, cleanEntry, unmatched]
  rcases seen with off | seen
  · rw [off]; rfl
  · rw [seen, Bool.and_false]; rfl

end

/-- The ignore files let a file through on its own spelling, or it lies below an
artifact path. -/
def Workspace.Unhidden (ws : Workspace) (roots : List (List Text)) (path : PathBuf) : Prop :=
  ∃ file, PlainPath file ∧ path = pathOf file ∧
    ((∀ entry, entry <+: file → entry ≠ [] → ws.walkIgnored entry (entry ≠ file) = false) ∨
      ∃ root ∈ roots, root <+: file)

structure ScansWithin (ws : Workspace) (roots : List (List Text)) (disk : Disk) (io : ScanIo) :
    Prop where
  plain : ∀ root respectIgnores file cache entry, ScanRoot ws io root respectIgnores →
    ws.walked disk root respectIgnores file = true →
    ws.readEntry disk io.faults (pathOf file) cache = .ok (some entry) → PlainPath file
  leads : ∀ root, ScanRoot ws io root false → root ∈ roots

-- No refresh reads a file that the ignore files hide.
structure ActsWithin (ws : Workspace) (roots : List (List Text)) (world : World)
    (action : Action) : Prop where
  refreshed : ∀ disk faults path entry, Refreshes ws world action disk faults path →
    ws.excludes path = false → ws.readEntry disk faults path ∅ = .ok (some entry) →
    ws.Unhidden roots path
  scanned : ∀ disk io, Scans world action disk io → ScansWithin ws roots disk io

def OpenedWithin (ws : Workspace) (roots : List (List Text)) (world : World) : Prop :=
  ∃ disk io cache index status, ScansWithin ws roots disk io ∧
    ws.scanWorkspace disk io cache = .ok index ∧ world.state = .new ws index status

def AdmitsAll (ws : Workspace) (roots : List (List Text)) (index : CodeIndex) : Prop :=
  ∀ path entry, index.lookup path = some entry → ws.Admits roots path

section

variable {ws : Workspace} {roots : List (List Text)}

theorem Walks.admits {disk : Disk} {io : ScanIo} {cache : SymbolCache} {entry : FileEntry}
    (walks : Walks ws disk io cache entry) (within : ScansWithin ws roots disk io) :
    ws.Admits roots entry.path := by
  obtain ⟨root, respectIgnores, file, from_root, walked, read⟩ := walks
  have plain := within.plain root respectIgnores file cache entry from_root walked read
  have admits := (walked_iff_admitsFrom.mp walked).1
  refine ⟨file, plain, by rw [ws.readEntry_path read, plain.relative_pathOf], ?_⟩
  rcases from_root with ⟨rfl, rfl⟩ | ⟨rfl, artifact⟩
  · exact .inl admits
  · exact .inr ⟨root, within.leads root (.inr ⟨rfl, artifact⟩), admits⟩

theorem admits_of_refreshed (below : ws.MatchesBelow) {disk : Disk} {faults : ReadFaults}
    {path : PathBuf} {entry : FileEntry} (inserts : ws.effectOf disk faults path = .insert entry)
    (unhidden : ws.Unhidden roots path) : ws.Admits roots entry.path := by
  obtain ⟨file, plain, rfl, seen⟩ := unhidden
  have included := ws.included_of_insert inserts
  rw [Workspace.excludes, Bool.or_eq_false_iff] at included
  refine ⟨file, plain, ?_, ?_⟩
  · rw [ws.readEntry_path (ws.effectOf_insert inserts), plain.relative_pathOf]
  · have admitted (root : List Text) (respectIgnores : Bool) (top : root <+: file)
        (passes : ∀ entry, entry <+: file → entry ≠ [] →
          respectIgnores = false ∨ ws.walkIgnored entry (entry ≠ file) = false) :
        ws.admitsFrom root respectIgnores file = true := by
      simp only [Workspace.admitsFrom, Bool.and_eq_true, List.isPrefixOf_iff_prefix,
        List.all_eq_true, List.mem_inits, Bool.or_eq_true, decide_eq_true_eq]
      refine ⟨⟨⟨top, fun entry above => ?_⟩, by rw [included.2]; rfl⟩, by rw [included.1]; rfl⟩
      by_cases named : entry = []
      · exact .inl (by rw [named]; exact Nat.zero_le _)
      · exact .inr (walkEntry_of_included below plain included.1 included.2 above named
          (passes entry above named))
    rcases seen with seen | ⟨root, mem, top⟩
    · exact .inl (admitted [] true List.nil_prefix fun entry above named =>
        .inr (seen entry above named))
    · exact .inr ⟨root, mem, admitted root false top fun _ _ _ => .inl rfl⟩

theorem Origin.admits (below : ws.MatchesBelow) {world : World} {action : Action}
    {entry : FileEntry} (origin : Origin ws world action entry)
    (within : ActsWithin ws roots world action) : ws.Admits roots entry.path := by
  cases origin with
  | refreshed asked inserts =>
    exact admits_of_refreshed below inserts (within.refreshed _ _ _ entry asked
      (ws.included_of_insert inserts) (ws.effectOf_insert inserts))
  | scanned asked walks => exact walks.admits (within.scanned _ _ asked)

theorem OpenedWithin.admitsAll {start : World} (opened : OpenedWithin ws roots start) :
    AdmitsAll ws roots start.state.shared.index := by
  obtain ⟨disk, io, cache, index, status, within, scan, state⟩ := opened
  intro path entry found
  rw [state] at found
  have indexed : index.lookup path = some entry := by cases status <;> exact found
  rw [← index.keyed path entry indexed]
  exact (walks_of_scanWorkspace scan indexed).admits within

/-- The index admits what a scan does, along every run whose refreshes read no file the
ignore files hide. -/
theorem admitsAll_reached (below : ws.MatchesBelow) {start later : World} {actions : List Action}
    (opened : OpenedWithin ws roots start)
    (run : Run (Along (ActsWithin ws roots) ws.Step) start actions later) :
    AdmitsAll ws roots later.state.shared.index := by
  refine run.invariant_along (fun world => AdmitsAll ws roots world.state.shared.index) ?_
    opened.admitsAll
  intro world action after admitted within step path entry found
  have own := after.state.shared.index.keyed path entry found
  rw [step] at found
  rcases origin_of_act action found with before | origin
  · exact admitted path entry before
  · rw [← own]
    exact origin.admits below within

end

namespace Sample

def secret : Text := "secret".toList

def visible : Text := "visible".toList

def secretive : Workspace :=
  { Workspace.plain with
    matcher := fun path _ => decide ("out".toList ∈ segments path)
    walkIgnored := fun parts _ => decide (parts = [secret]) }

theorem matchesBelow_secretive : secretive.MatchesBelow := by
  intro dir file isDir plain above other named matched
  have inside := of_decide_eq_true matched
  rw [segments_joinSegments (plain.of_prefix above)] at inside
  refine decide_eq_true ?_
  rw [segments_joinSegments plain]
  exact above.subset inside

def noticing (file : Text) : List Action :=
  [.disk (Disk.holding [([file], "new".toList)]), .observe [pathOf [file]], .reconcile .calm]

def openedSecretive : World := .opened secretive (Disk.holding [([visible], "old".toList)])

def afterNoticing (file : Text) : World :=
  (noticing file).foldl (fun world action => secretive.act action world) openedSecretive

end Sample

open Sample in
theorem admitsAll_noticing : AdmitsAll secretive [] (afterNoticing visible).state.shared.index := by
  let start := openedSecretive
  let changed := secretive.act (.disk (Disk.holding [([visible], "new".toList)])) start
  let observed := secretive.act (.observe [pathOf [visible]]) changed
  have opened : OpenedWithin secretive [] start := by
    obtain ⟨index, scan, state⟩ := secretive.opened_scan start.disk (by decide)
    refine ⟨start.disk, .calm, ∅, index, .ok .default, ⟨?_, ?_⟩, scan, state⟩
    · intro root respectIgnores file cache entry _ walked _
      obtain ⟨bytes, found⟩ :=
        Option.isSome_iff_exists.mp (walked_iff_admitsFrom.mp walked).2.1
      have all : ∀ key ∈ start.disk.nodes.keys, PlainPath key := by decide
      exact all file (Disk.mem_keys_of_fileAt found)
    · rintro root (⟨-, clash⟩ | ⟨-, text, mem, -⟩)
      · cases clash
      · cases mem
  have onDisk : ActsWithin secretive [] start
      (.disk (Disk.holding [([visible], "new".toList)])) :=
    ⟨fun _ _ _ _ asked => (nomatch asked), fun _ _ asked => (nomatch asked)⟩
  have onWatch : ActsWithin secretive [] changed (.observe [pathOf [visible]]) :=
    ⟨fun _ _ _ _ asked => (nomatch asked), fun _ _ asked => (nomatch asked)⟩
  have onReconcile : ActsWithin secretive [] observed (.reconcile .calm) := by
    refine ⟨fun disk faults path entry asked _ _ => ?_, fun _ _ asked => (nomatch asked)⟩
    cases asked with
    | reconcile pending drained =>
      have queued : ∀ path ∈ observed.state.ledger.pending, path = pathOf [visible] := by decide
      refine ⟨[visible], by decide, queued path pending, .inl fun top above named => ?_⟩
      have here : top = [visible] := by
        rcases List.prefix_cons_iff.mp above with none_left | ⟨rest, rfl, shorter⟩
        · exact absurd none_left named
        · rw [List.prefix_nil.mp shorter]
      rw [here]
      decide
  have run : Run (Along (ActsWithin secretive []) secretive.Step) start
      ([.disk (Disk.holding [([visible], "new".toList)])] ++ [.observe [pathOf [visible]]] ++
        [.reconcile .calm]) (afterNoticing visible) :=
    .snoc (.snoc (.single ⟨onDisk, rfl⟩) ⟨onWatch, rfl⟩) ⟨onReconcile, rfl⟩
  exact admitsAll_reached matchesBelow_secretive opened run

-- A refresh reads a file that the ignore files hide.
open Sample in
theorem hidden_file_indexed :
    secretive.MatchesBelow ∧ secretive.Opened openedSecretive ∧
      Run secretive.Step openedSecretive (noticing secret) (afterNoticing secret) ∧
      secretive.artifactPaths = [] ∧
      ((afterNoticing secret).state.shared.index.lookup secret).isSome = true ∧
      ¬secretive.Admits [] secret := by
  refine ⟨matchesBelow_secretive, secretive.opened_opened (by decide),
    secretive.run_foldl_act _ _, rfl, by decide, ?_⟩
  rintro ⟨file, plain, spelled, admitted | ⟨root, mem, -⟩⟩
  · have same : file = [secret] := by
      have own : secret = joinSegments [secret] := by decide
      exact (joinSegments_injOn plain (by decide) (spelled.symm.trans own))
    rw [same] at admitted
    exact absurd admitted (by decide)
  · cases mem

end CodeWeave
