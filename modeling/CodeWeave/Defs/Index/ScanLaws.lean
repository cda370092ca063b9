import CodeWeave.Defs.Index.Scan

namespace CodeWeave

namespace Workspace

variable (ws : Workspace) (disk : Disk)

def WalkReads (faults : ReadFaults) (scanRoot : List Text) (respectIgnores : Bool) : Prop :=
  ∀ file ∈ disk.nodes.keys, ws.walked disk scanRoot respectIgnores file = true →
    (ws.readEntry disk faults (pathOf file) ∅).isOk

/-- An artifact path names nothing, or a tree inside the root whose files can be read. -/
def ArtifactReads (io : ScanIo) (text : Text) : Prop :=
  ∃ relative, RelPath.new text = .ok relative ∧
    (io.resolve relative.components = none ∨
      ∃ resolved, io.resolve relative.components = some (.ok (some resolved)) ∧
        ws.WalkReads disk io.faults resolved false)

def ScanReads (io : ScanIo) : Prop :=
  ws.WalkReads disk io.faults [] true ∧ ∀ text ∈ ws.artifactPaths, ws.ArtifactReads disk io text

theorem readEntry_calm (path : PathBuf) (cache : SymbolCache) :
    (ws.readEntry disk (fun _ => none) path cache).isOk := by
  rw [readEntry]
  cases RelPath.new path.relative with
  | error error => rfl
  | ok relative =>
    have read : ∃ file, disk.readFile (fun _ => none) relative ws.maxFileBytes = .ok file := by
      simp only [Disk.readFile]
      split
      · split
        · exact ⟨_, rfl⟩
        · exact ⟨_, rfl⟩
      · exact ⟨_, rfl⟩
    obtain ⟨file, read⟩ := read
    simp only [read]
    cases file with
    | none => rfl
    | some file =>
      simp only
      split
      · rfl
      · cases fromUtf8 file.bytes <;> rfl

theorem mapM_isOk {A B : Type} (f : A → AppResult B) (as : List A) :
    (as.mapM f).isOk ↔ ∀ a ∈ as, (f a).isOk := by
  induction as with
  | nil => simp [pure, Except.pure]
  | cons a rest ih =>
    rw [List.mapM_cons]
    cases first : f a with
    | error error => simp [first, bind, Except.bind]
    | ok b =>
      rw [List.forall_mem_cons, ← ih, first]
      cases rest.mapM f <;>
        simp [bind, Except.bind, pure, Except.pure]

theorem scanDirectory_isOk (faults : ReadFaults) (scanRoot : List Text) (respectIgnores : Bool)
    (index : CodeIndex) :
    (ws.scanDirectory disk faults scanRoot respectIgnores ∅ index).isOk ↔
      ws.WalkReads disk faults scanRoot respectIgnores := by
  have reads := mapM_isOk (fun path => ws.readEntry disk faults (pathOf path) ∅)
    (disk.nodes.keys.filter (ws.walked disk scanRoot respectIgnores))
  simp only [List.mem_filter, and_imp] at reads
  rw [WalkReads, ← reads, scanDirectory]
  cases (disk.nodes.keys.filter (ws.walked disk scanRoot respectIgnores)).mapM
    fun path => ws.readEntry disk faults (pathOf path) ∅ <;> rfl

theorem scanArtifacts_isOk (io : ScanIo) (texts : List Text) (index : CodeIndex) :
    (ws.scanArtifacts disk io ∅ texts index).isOk ↔ ∀ text ∈ texts, ws.ArtifactReads disk io text := by
  induction texts generalizing index with
  | nil => simp [scanArtifacts]
  | cons text rest ih =>
    rw [scanArtifacts, List.forall_mem_cons, ArtifactReads]
    cases RelPath.new text with
    | error error => simp
    | ok relative =>
      simp only [Except.ok.injEq, exists_eq_left']
      cases io.resolve relative.components with
      | none => simp [ih]
      | some resolved =>
        cases resolved with
        | error error => simp
        | ok resolved =>
          cases resolved with
          | none => simp
          | some resolved =>
            have walk := ws.scanDirectory_isOk disk io.faults resolved false index
            simp only [Option.some.injEq, Except.ok.injEq, exists_eq_left', reduceCtorEq, false_or,
              ← walk]
            cases ws.scanDirectory disk io.faults resolved false ∅ index with
            | error error => simp
            | ok index => simp [ih]

theorem scan_isOk (io : ScanIo) : (ws.scan disk io).isOk ↔ ws.ScanReads disk io := by
  have walk := ws.scanDirectory_isOk disk io.faults [] true .empty
  rw [scan, scanWorkspace, ScanReads, ← walk]
  cases ws.scanDirectory disk io.faults [] true ∅ .empty with
  | error error => simp
  | ok index => simp [scanArtifacts_isOk]

end Workspace

end CodeWeave
