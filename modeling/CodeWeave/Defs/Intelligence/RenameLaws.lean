import CodeWeave.Defs.Intelligence.References
import CodeWeave.Defs.Intelligence.WorkspaceEdit
import CodeWeave.Defs.Workspace.KeptEndings

namespace CodeWeave

theorem normalizeForContent_eq_self {content text : Text} :
    normalizeLineEndingsForContent content text = text ↔ KeepsEndings content text := by
  constructor
  · intro same
    rw [← same]
    exact keepsEndings_normalized content text
  · intro kept
    cases label : lineEndingLabel content with
    | crlf =>
      rw [keepsEndings_crlf label] at kept
      rw [normalize_crlf label, normalize_allCrlf kept]
    | lf =>
      rw [keepsEndings_lf label] at kept
      simp only [normalizeLineEndingsForContent, label]
      exact normalize_lf kept
    | none => simp only [normalizeLineEndingsForContent, label]
    | mixed => simp only [normalizeLineEndingsForContent, label]

theorem occurrences_self (text : Text) : occurrences text text = 1 := by
  by_cases empty : text = []
  · rw [empty, occurrences_empty, List.length_nil]
  · have once := occurrences_append empty []
    rwa [List.append_nil, occurrences_nil empty] at once

theorem replacen_self (text replacement : Text) : replacen text text replacement 1 = replacement := by
  by_cases empty : text = []
  · rw [empty]
    have once := replacen_empty [] replacement
    rwa [List.flatMap_nil, List.append_nil] at once
  · have once := replacen_append empty [] replacement 0
    rwa [List.append_nil, replacen_zero, List.append_nil] at once

theorem matchingOldText_self (content : Text) :
    matchingOldText content content content 1 = (content, 1) := by
  have same := normalizeForContent_eq_self.mpr (keepsEndings_self content)
  have once := occurrences_self content
  rw [occurrences] at once
  simp only [matchingOldText, same, ne_eq, not_true_eq_false, false_and, if_false, once]

theorem preserved_eq_iff (content text : Text) :
    preserveTerminalLineEnding content (normalizeLineEndingsForContent content text) = text ↔
      KeepsEndings content text ∧ (text = [] ∨ ['\n'] <:+ text ∨ ¬['\n'] <:+ content) := by
  constructor
  · intro same
    have kept : KeepsEndings content text := by
      rw [← same]
      exact keepsEndings_preserved (keepsEndings_self content) text
    rw [normalizeForContent_eq_self.mpr kept, preserveTerminalLineEnding] at same
    refine ⟨kept, ?_⟩
    by_contra restored
    rw [if_neg restored] at same
    split at same
    · exact absurd (congrArg List.length same) (by simp)
    · exact absurd (congrArg List.length same) (by simp)
  · rintro ⟨kept, closed⟩
    rw [normalizeForContent_eq_self.mpr kept, preserveTerminalLineEnding, if_pos closed]

section

variable {ws : Workspace} {change : RenameChange ws} {path : RelPath} {index : CodeIndex}
  {plan : EditPlan} (hasSnapshot : Bool) (named : RelPath.new change.path = .ok path)
  (current : (index.get path.text).map FileEntry.content = some change.oldText)

include named current

theorem preflight_toChange : ws.preflightOverlaps [change.toChange] index = .ok () := by
  obtain ⟨file, indexed, content⟩ := Option.map_eq_some_iff.mp current
  rw [RelPath.new_text named] at indexed
  have ranges : ws.preflightRanges index change.toChange (normalizePathText change.path) =
      .ok ((matchIndices file.content file.content).map fun start =>
        (0 + start, 0 + start + file.content.length)) := by
    simp only [Workspace.preflightRanges, indexed, okOr, bind, Except.bind, Workspace.editHandle,
      RenameChange.toChange, Change.handle, ← content, matchingOldText_self, require, decide_true,
      if_true]
  obtain ⟨start, once⟩ := List.length_eq_one_iff.mp (occurrences_self file.content)
  rw [once, List.map_singleton] at ranges
  have free : Workspace.ambiguousHandlePath [change.toChange] = none := by
    simp [Workspace.ambiguousHandlePath, RenameChange.toChange, Change.handle]
  rw [Workspace.preflightOverlaps, free]
  simp only [RenameChange.toChange, Workspace.preflightEach, Change.path] at ranges ⊢
  rw [ranges]
  rfl

theorem planChange_toChange (unplanned : plan.lookup path = none) :
    ws.planChange change.toChange hasSnapshot plan index =
      .ok (putPlan ws plan path (some change.oldText) (some
        (preserveTerminalLineEnding change.oldText
          (normalizeLineEndingsForContent change.oldText change.newText)))) := by
  have applied : ws.planChange change.toChange hasSnapshot plan index = _ :=
    ws.planChange_current named rfl (by rw [← change.guarded]; rfl) unplanned current
  rw [applied, RenameChange.toChange, Workspace.applyChange]
  simp only [okOr, bind, Except.bind, replacedText, matchingOldText_self, require, decide_true,
    if_true, replacen_self]

end

def AppliesAsPreviewed {ws : Workspace} (index : CodeIndex) (plan : EditPlan) (hasSnapshot : Bool)
    (change : RenameChange ws) : Prop :=
  ∃ path plan', RelPath.new change.path = .ok path ∧
    ws.preflightOverlaps [change.toChange] index = .ok () ∧
    ws.planChange change.toChange hasSnapshot plan index = .ok plan' ∧
    plannedContent plan' index path = some change.newText

/-- The file still has the text the change was compiled from, and is not planned yet. -/
def StillAt {ws : Workspace} (index : CodeIndex) (plan : EditPlan) (change : RenameChange ws) :
    Prop :=
  ∀ path, RelPath.new change.path = .ok path → plan.lookup path = none ∧
    (index.get path.text).map FileEntry.content = some change.oldText

theorem appliesAsPreviewed_iff {ws : Workspace} {index : CodeIndex} {plan : EditPlan}
    {change : RenameChange ws} {path : RelPath} (hasSnapshot : Bool)
    (named : RelPath.new change.path = .ok path) (still : StillAt index plan change) :
    AppliesAsPreviewed index plan hasSnapshot change ↔
      KeepsEndings change.oldText change.newText ∧
        (change.newText = [] ∨ ['\n'] <:+ change.newText ∨ ¬['\n'] <:+ change.oldText) := by
  obtain ⟨unplanned, current⟩ := still path named
  have planned := planChange_toChange hasSnapshot named current unplanned
  rw [← preserved_eq_iff]
  constructor
  · rintro ⟨other, plan', named', -, planned', after⟩
    obtain rfl := Except.ok.inj (named.symm.trans named')
    obtain rfl := Except.ok.inj (planned.symm.trans planned')
    rw [plannedContent_putPlan, Files.set, if_pos rfl] at after
    exact Option.some.inj after
  · intro same
    refine ⟨path, _, named, preflight_toChange named current, planned, ?_⟩
    rw [plannedContent_putPlan, Files.set, if_pos rfl, same]

namespace Interleaving

variable {ws : Workspace} {moments : Interleaving ws} {codec : UriCodec}

theorem compiledEntry_reads {encoding : PositionEncoding} {files later : ResultFiles}
    {entry : Text × Value} {change : RenameChange ws}
    (h : moments.compiledEntry codec encoding files entry = .ok (change, later)) :
    moments.Reads files later ∧ ∃ file, later.contents.lookup change.path = some file ∧
      codec.relative entry.1 = .ok change.path ∧ file.text = change.oldText ∧
      editedText change.oldText encoding entry.2 = .ok change.newText := by
  simp only [compiledEntry, bind_eq_ok] at h
  obtain ⟨path, relative, ⟨file, after⟩, read, text, edited, h⟩ := h
  cases h
  obtain ⟨reads, found⟩ := content_reads read
  exact ⟨reads, file, found, relative, rfl, edited⟩

theorem compiledEntries_reads {encoding : PositionEncoding} {documents : List (Text × Value)}
    {files later : ResultFiles} {changes : List (RenameChange ws)}
    (h : moments.compiledEntries codec encoding files documents = .ok (changes, later)) :
    moments.Reads files later ∧ ∀ change ∈ changes, ∃ file,
      later.contents.lookup change.path = some file ∧ file.text = change.oldText := by
  induction documents generalizing files changes with
  | nil =>
    cases h
    exact ⟨.refl _, nofun⟩
  | cons entry rest ih =>
    simp only [compiledEntries, bind_eq_ok] at h
    obtain ⟨⟨change, between⟩, first, ⟨more, after⟩, others, h⟩ := h
    cases h
    obtain ⟨reads, file, found, -, text, -⟩ := compiledEntry_reads first
    obtain ⟨readsLater, each⟩ := ih others
    refine ⟨reads.trans readsLater, List.forall_mem_cons.mpr ⟨?_, each⟩⟩
    exact ⟨file, readsLater.kept _ _ found, text⟩

theorem current_of_compiled {documents : List (Text × Value)} {encoding : PositionEncoding}
    {clock : Nat} {later : ResultFiles} {changes : List (RenameChange ws)}
    {change : RenameChange ws}
    (compiled : moments.compiledEntries codec encoding ⟨clock, ∅⟩ documents = .ok (changes, later))
    (mem : change ∈ changes) : ∃ moment, moments.Current change.path ⟨change.oldText, moment⟩ := by
  obtain ⟨reads, each⟩ := compiledEntries_reads compiled
  obtain ⟨⟨text, moment⟩, found, same⟩ := each change mem
  cases same
  exact ⟨moment, reads.current (fun path file none => by cases none) _ _ found⟩

theorem named_of_compiled {edit : Value} {encoding : PositionEncoding} {clock : Nat}
    {later : ResultFiles} {changes : List (RenameChange ws)} {change : RenameChange ws}
    (compiled : moments.workspaceEditChanges codec ⟨clock, ∅⟩ edit encoding = .ok (changes, later))
    (mem : change ∈ changes) : ∃ path, RelPath.new change.path = .ok path := by
  simp only [workspaceEditChanges, bind_eq_ok] at compiled
  obtain ⟨documents, -, compiled⟩ := compiled
  obtain ⟨moment, current⟩ := current_of_compiled compiled mem
  have read := current.read
  simp only [readText, bind_eq_ok] at read
  obtain ⟨path, named, -⟩ := read
  exact ⟨path, named⟩

end Interleaving

/-- A compiled rename is applied as it was previewed exactly when its new text has the line
endings of the old one, and is ended if that is. -/
theorem renameChange_applies_iff {ws : Workspace} {moments : Interleaving ws} {codec : UriCodec}
    {edit : Value} {encoding : PositionEncoding} {clock : Nat} {later : ResultFiles}
    {changes : List (RenameChange ws)} {change : RenameChange ws} {index : CodeIndex}
    {plan : EditPlan} {hasSnapshot : Bool}
    (compiled : moments.workspaceEditChanges codec ⟨clock, ∅⟩ edit encoding = .ok (changes, later))
    (mem : change ∈ changes) (still : StillAt index plan change) :
    AppliesAsPreviewed index plan hasSnapshot change ↔
      KeepsEndings change.oldText change.newText ∧
        (change.newText = [] ∨ ['\n'] <:+ change.newText ∨ ¬['\n'] <:+ change.oldText) := by
  obtain ⟨path, named⟩ := Interleaving.named_of_compiled compiled mem
  exact appliesAsPreviewed_iff hasSnapshot named still

namespace Sample

def editB (text : String) : Value :=
  json [("changes", json [("file:///w/b", .list [json [
    ("range", json [("start", json [("line", .number 0), ("character", .number 0)]),
      ("end", json [("line", .number 1), ("character", .number 0)])]),
    ("newText", .str text)]])])]

def compiledB (text : String) : AppResult (List (RenameChange declaring) × ResultFiles) :=
  (referencesF fun _ => []).workspaceEditChanges (.new false "/w".toList none) ⟨4, ∅⟩ (editB text)
    .utf16

def indexB : CodeIndex :=
  CodeIndex.empty.insert declaring ⟨"b".toList, "old\n".toList, "old\n".toList, [], 0, 0⟩

theorem stillAt_indexB {change : RenameChange declaring} (path_eq : change.path = pathB.text)
    (old : change.oldText = "old\n".toList) : StillAt indexB ∅ change := by
  intro path named
  rw [path_eq, RelPath.new_self] at named
  obtain rfl := Except.ok.inj named
  rw [old]
  exact ⟨rfl, rfl⟩

theorem compiledB_eq {text : String}
    (facts : ((compiledB text).toOption.any fun compiled => compiled.1.any fun change =>
      change.path = pathB.text ∧ change.oldText = "old\n".toList ∧ change.newText = text.toList) =
        true) :
    ∃ changes later change, compiledB text = .ok (changes, later) ∧ change ∈ changes ∧
      StillAt indexB ∅ change ∧ change.path = pathB.text ∧ change.oldText = "old\n".toList ∧
      change.newText = text.toList := by
  obtain ⟨⟨changes, later⟩, compiled, facts⟩ := (Option.any_eq_true _ _).mp facts
  obtain ⟨change, mem, facts⟩ := List.any_eq_true.mp facts
  obtain ⟨path_eq, old, new⟩ := of_decide_eq_true facts
  exact ⟨changes, later, change, eq_ok_of_toOption compiled, mem, stillAt_indexB path_eq old,
    path_eq, old, new⟩

end Sample

open Sample in
theorem renameChange_applies_ended :
    ∃ changes later change, compiledB "new\n" = .ok (changes, later) ∧ change ∈ changes ∧
      AppliesAsPreviewed indexB ∅ false change := by
  obtain ⟨changes, later, change, compiled, mem, still, -, old, new⟩ :=
    @compiledB_eq "new\n" (by decide +kernel)
  refine ⟨changes, later, change, compiled, mem,
    (renameChange_applies_iff compiled mem still).mpr ?_⟩
  rw [old, new, keepsEndings_lf (by decide)]
  exact ⟨by decide, .inr (.inl (by decide))⟩

open Sample in
-- The terminator of the old text is put back.
theorem not_appliesAsPreviewed :
    ∃ changes later change, compiledB "new" = .ok (changes, later) ∧ change ∈ changes ∧
      StillAt indexB ∅ change ∧ ¬AppliesAsPreviewed indexB ∅ false change := by
  obtain ⟨changes, later, change, compiled, mem, still, path_eq, old, new⟩ :=
    @compiledB_eq "new" (by decide +kernel)
  refine ⟨changes, later, change, compiled, mem, still, ?_⟩
  have named : RelPath.new change.path = .ok pathB := by rw [path_eq, RelPath.new_self]
  rw [appliesAsPreviewed_iff false named still, old, new]
  rintro ⟨-, nothing | ended | unended⟩
  · exact absurd nothing (by decide)
  · exact absurd ended (by decide)
  · exact unended (by decide)

end CodeWeave
