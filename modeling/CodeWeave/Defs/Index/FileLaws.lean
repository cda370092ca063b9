import CodeWeave.Defs.Index.RefreshLaws

namespace CodeWeave

open Overwrite

def Effect.entry : Effect → Option FileEntry
  | .insert entry => some entry
  | _ => none

def treePatch (path : Text) (entry : Option FileEntry) : Patch Text (Option FileEntry) :=
  fun key => if entry = none ∧ AtOrBelow path key ∨ key = path then some entry else none

theorem treePatch_other {path key : Text} (other : key ≠ path) (entry : Option FileEntry) :
    treePatch path entry key = none ∨
      entry = none ∧ path ++ ['/'] <+: key ∧ treePatch path entry key = some none := by
  cases entry with
  | some entry => exact .inl (by simp [treePatch, other])
  | none =>
    by_cases below : path ++ ['/'] <+: key
    · exact .inr ⟨rfl, below, by simp [treePatch, AtOrBelow, below]⟩
    · exact .inl (by simp [treePatch, AtOrBelow, below, other])

theorem applyAll_treePatch_other {A : Type} (name : A → Text) (entry : A → Option FileEntry)
    {tops : List A} {key : Text} (others : ∀ top ∈ tops, key ≠ name top)
    (store : Text → Option FileEntry) :
    ((∃ top ∈ tops, entry top = none ∧ name top ++ ['/'] <+: key) →
      applyAll (tops.map fun a => treePatch (name a) (entry a)) store key = none) ∧
    ((¬∃ top ∈ tops, entry top = none ∧ name top ++ ['/'] <+: key) →
      applyAll (tops.map fun a => treePatch (name a) (entry a)) store key = store key) := by
  constructor
  · rintro ⟨top, mem, gone, below⟩
    apply applyAll_settled
    · intro patch inPatches
      obtain ⟨other, h, rfl⟩ := List.mem_map.mp inPatches
      exact (treePatch_other (others other h) (entry other)).imp_right fun removal => removal.2.2
    · exact ⟨_, List.mem_map.mpr ⟨top, mem, rfl⟩, by simp [treePatch, AtOrBelow, gone, below]⟩
  · intro none_above
    apply applyAll_untouched
    intro patch inPatches
    obtain ⟨other, h, rfl⟩ := List.mem_map.mp inPatches
    cases treePatch_other (others other h) (entry other) with
    | inl leaves => exact leaves
    | inr removal => exact absurd ⟨other, h, removal.1, removal.2.1⟩ none_above

theorem applyAll_treePatch {A : Type} (name : A → Text) (entry : A → Option FileEntry)
    {pre post : List A} {a : A} (distinct : ((pre ++ a :: post).map name).Nodup)
    (store : Text → Option FileEntry) :
    ((∃ top ∈ post, entry top = none ∧ name top ++ ['/'] <+: name a) →
      applyAll ((pre ++ a :: post).map fun a => treePatch (name a) (entry a)) store (name a) = none) ∧
    ((¬∃ top ∈ post, entry top = none ∧ name top ++ ['/'] <+: name a) →
      applyAll ((pre ++ a :: post).map fun a => treePatch (name a) (entry a)) store (name a) =
        entry a) := by
  have differs : ∀ top ∈ post, name a ≠ name top := by
    intro top inPost same
    rw [List.map_append, List.map_cons] at distinct
    apply (List.nodup_cons.mp (List.nodup_append.mp distinct).2.1).1
    exact List.mem_map.mpr ⟨top, inPost, same.symm⟩
  rw [List.map_append, List.map_cons, applyAll_append, applyAll_cons]
  have later := applyAll_treePatch_other name entry differs
    ((treePatch (name a) (entry a)).apply
      (applyAll (pre.map fun a => treePatch (name a) (entry a)) store))
  refine ⟨later.1, fun unshadowed => (later.2 unshadowed).trans ?_⟩
  exact Patch.apply_of_some (by simp [treePatch]) _

structure IndexableText (ws : Workspace) (content : Text) : Prop where
  fits : content.bytes.size ≤ ws.maxFileBytes
  noNul : (content.bytes.data.toList.take 8192).any (· = 0) = false

structure IndexablePath (ws : Workspace) (path : RelPath) : Prop where
  named : path.components ≠ []
  watched : ws.isIgnored path.join false = false
  included : ws.excludedPath path.join = false

instance (ws : Workspace) (content : Text) : Decidable (IndexableText ws content) :=
  decidable_of_iff (content.bytes.size ≤ ws.maxFileBytes ∧
      (content.bytes.data.toList.take 8192).any (· = 0) = false)
    ⟨fun h => ⟨h.1, h.2⟩, fun h => ⟨h.fits, h.noNul⟩⟩

instance (ws : Workspace) (path : RelPath) : Decidable (IndexablePath ws path) :=
  decidable_of_iff (path.components ≠ [] ∧ ws.isIgnored path.join false = false ∧
      ws.excludedPath path.join = false)
    ⟨fun h => ⟨h.1, h.2.1, h.2.2⟩, fun h => ⟨h.named, h.watched, h.included⟩⟩

theorem RelPath.text_not_blank {path : RelPath} (named : path.components ≠ []) :
    ¬(path.text = [] ∨ path.text = ['.']) := by
  intro blank
  apply named
  cases blank with
  | inl empty => rw [components, empty]; rfl
  | inr dot => rw [components, dot]; rfl

namespace Workspace

variable (ws : Workspace) {disk : Disk} (faults : ReadFaults) {path : RelPath}

theorem refreshEffect_absent (named : path.components ≠ [])
    (absent : disk.fileAt path.components = none) :
    ws.refreshEffect disk faults path.join = .ok (.removeTree path.text) := by
  have regular : disk.isRegularFile path = false := by rw [Disk.isRegularFile, absent]; rfl
  simp [refreshEffect, RelPath.text_not_blank named, regular]

theorem refreshEffect_fault (indexable : IndexablePath ws path) {bytes : ByteArray}
    (file : disk.fileAt path.components = some bytes) {error : IoError}
    (fault : faults path.components = some error) :
    ws.refreshEffect disk faults path.join = .error (.internal error) := by
  have regular : disk.isRegularFile path = true := by rw [Disk.isRegularFile, file]; rfl
  obtain ⟨modifiedNs, node⟩ := Disk.fileAt_eq_some.mp file
  have read : disk.readFile faults path ws.maxFileBytes = .error (.internal error) := by
    simp [Disk.readFile, node, fault]
  simp [refreshEffect, RelPath.text_not_blank indexable.named, regular, indexable.watched,
    indexable.included, readEntry, read]

theorem readEntry_text {content : Text} (indexable : IndexableText ws content)
    (file : disk.fileAt path.components = some content.bytes) (fine : faults path.components = none)
    (cache : SymbolCache) :
    ∃ entry, ws.readEntry disk faults path.join cache = .ok (some entry) ∧
      entry.path = path.text ∧ entry.content = content ∧ entry.hash = ws.contentHash content := by
  obtain ⟨modifiedNs, node⟩ := Disk.fileAt_eq_some.mp file
  have read : disk.readFile faults path ws.maxFileBytes =
      .ok (some ⟨content.bytes, content.bytes.size, modifiedNs⟩) := by
    simp [Disk.readFile, node, fine, Nat.not_lt.mpr indexable.fits]
  let symbols := (cache.symbolsFor path.text (ws.contentHash content)).getD
    (ws.extractSymbols path.text content)
  refine ⟨⟨path.text, content, ws.contentHash content, symbols, content.bytes.size, modifiedNs⟩,
    ?_, rfl, rfl, rfl⟩
  simp only [readEntry, RelPath.relative_join, RelPath.new_self, read, indexable.noNul,
    Bool.false_eq_true, if_false, fromUtf8_bytes, symbols]

theorem refreshEffect_text (indexable : IndexablePath ws path) {content : Text}
    (text : IndexableText ws content) (file : disk.fileAt path.components = some content.bytes)
    (fine : faults path.components = none) :
    ∃ entry, ws.refreshEffect disk faults path.join = .ok (.insert entry) ∧
      entry.path = path.text ∧ entry.content = content ∧ entry.hash = ws.contentHash content := by
  have regular : disk.isRegularFile path = true := by rw [Disk.isRegularFile, file]; rfl
  obtain ⟨entry, read, facts⟩ := ws.readEntry_text faults text file fine ∅
  refine ⟨entry, ?_, facts⟩
  simp [refreshEffect, RelPath.text_not_blank indexable.named, regular, indexable.watched,
    indexable.included, read]

end Workspace

end CodeWeave
