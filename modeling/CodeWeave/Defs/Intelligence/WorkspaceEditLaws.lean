import CodeWeave.Defs.Intelligence.PositionLaws
import CodeWeave.Defs.Intelligence.RenameLaws
import CodeWeave.Lib.Splices

namespace CodeWeave

open Splices

theorem length_takeBytes_le (text : Text) {few many : Nat} (fewer : few ≤ many) :
    (takeBytes text few).length ≤ (takeBytes text many).length := by
  induction text generalizing few many with
  | nil => exact Nat.le_refl 0
  | cons c rest ih =>
    rw [takeBytes, takeBytes]
    split
    · next fits =>
      rw [if_pos (fits.trans fewer), List.length_cons, List.length_cons]
      exact Nat.succ_le_succ (ih (Nat.sub_le_sub_right fewer _))
    · exact Nat.zero_le _

def Boundary (content : Text) (offset : Nat) : Prop :=
  ∃ front rest, content = front ++ rest ∧ offset = utf8Count front

theorem boundary_of_offset {content : Text} {line column offset : Nat}
    {encoding : PositionEncoding}
    (found : offsetForServerPosition content line column encoding = .ok offset) :
    Boundary content offset := by
  have nonempty : content ≠ [] := by
    rintro rfl
    exact offsetForServerPosition_of_empty found
  obtain ⟨start, rest, -, whole, rfl⟩ := (offsetForServerPosition_eq_ok nonempty).mp found
  exact ⟨lineStart content line ++ start, rest, whole, (utf8Count_append _ _).symm⟩

def EditRange.splice (before : Text) (range : EditRange) : Splice Char where
  start := (takeBytes before range.start).length
  stop := (takeBytes before range.stop).length
  text := range.text
  ordered := length_takeBytes_le before range.ordered

structure EditRange.Fits (before : Text) (range : EditRange) : Prop where
  start : Boundary before range.start
  stop : Boundary before range.stop

theorem EditRange.Fits.parts {before : Text} {range : EditRange} (fits : range.Fits before) :
    ∃ front part rest, before = front ++ part ++ rest ∧ range.start = utf8Count front ∧
      range.stop = utf8Count (front ++ part) := by
  obtain ⟨⟨front, rest, whole, start⟩, upTo, below, whole', stop⟩ := fits
  have longer := length_takeBytes_le before range.ordered
  rw [start, stop, whole, takeBytes_append, ← whole, whole', takeBytes_append] at longer
  obtain ⟨part, rfl⟩ := List.prefix_of_prefix_length_le ⟨rest, whole.symm⟩ ⟨below, whole'.symm⟩ longer
  exact ⟨front, part, below, whole', start, stop⟩

theorem editRange_fits {before : Text} {encoding : PositionEncoding} {item : Value}
    {range : EditRange} (found : editRange before encoding item = .ok range) :
    range.Fits before := by
  simp only [editRange, bind_eq_ok] at found
  obtain ⟨⟨_, _⟩, -, ⟨_, _⟩, -, start, startFound, stop, stopFound, found⟩ := found
  split at found
  · cases found
  · simp only [bind_eq_ok] at found
    obtain ⟨text, -, found⟩ := found
    obtain rfl := Except.ok.inj found
    exact ⟨boundary_of_offset startFound, boundary_of_offset stopFound⟩

theorem editRanges_fit {before : Text} {encoding : PositionEncoding} {items : List Value}
    {ranges : List EditRange} (found : editRanges before encoding items = .ok ranges) :
    ∀ range ∈ ranges, range.Fits before := by
  induction items generalizing ranges with
  | nil =>
    obtain rfl := Except.ok.inj found
    exact nofun
  | cons item rest ih =>
    simp only [editRanges, bind_eq_ok] at found
    obtain ⟨range, here, others, later, found⟩ := found
    obtain rfl := Except.ok.inj found
    exact List.forall_mem_cons.mpr ⟨editRange_fits here, ih later⟩

theorem pairwise_of_not_overlapping {ranges : List EditRange}
    (apart : overlapping ranges = false) :
    ranges.Pairwise fun range next => range.stop ≤ next.start := by
  induction ranges with
  | nil => exact .nil
  | cons range rest ih =>
    cases rest with
    | nil => exact List.pairwise_singleton _ _
    | cons next rest =>
      simp only [overlapping, Bool.or_eq_false_iff, decide_eq_false_iff_not, Nat.not_lt] at apart
      have later := ih apart.2
      refine List.pairwise_cons.mpr ⟨List.forall_mem_cons.mpr ⟨apart.1, fun other mem => ?_⟩, later⟩
      exact (apart.1.trans next.ordered).trans ((List.pairwise_cons.mp later).1 other mem)

theorem foldr_replaceBytes {before : Text} {ranges : List EditRange}
    (fit : ∀ range ∈ ranges, range.Fits before)
    (ordered : ranges.Pairwise fun range next => range.stop ≤ next.start) :
    ranges.foldr (fun range after => replaceBytes after range.start range.stop range.text) before =
      spliced (ranges.map (EditRange.splice before)) before := by
  induction ranges with
  | nil => exact (spliced_nil before).symm
  | cons range rest ih =>
    obtain ⟨first, later⟩ := List.pairwise_cons.mp ordered
    have made := ih (fun other mem => fit other (List.mem_cons_of_mem _ mem)) later
    obtain ⟨front, part, rest', whole, start, stop⟩ := (fit range List.mem_cons_self).parts
    have before_start : takeBytes before range.start = front := by
      rw [whole, start, List.append_assoc, takeBytes_append]
    have before_stop : takeBytes before range.stop = front ++ part := by
      rw [whole, stop, takeBytes_append]
    have behind : ∀ splice ∈ rest.map (EditRange.splice before),
        (range.splice before).stop ≤ splice.start := by
      intro splice mem
      obtain ⟨other, mem', rfl⟩ := List.mem_map.mp mem
      exact length_takeBytes_le before (first other mem')
    obtain ⟨tail, others, all⟩ := @spliced_cons _ _ _ behind front part rest'
      (congrArg List.length before_start.symm) (congrArg List.length before_stop.symm)
    rw [← whole] at others all
    rw [List.foldr_cons, List.map_cons, made, others, all, replaceBytes, start, stop,
      List.append_assoc front part, takeBytes_append, ← List.append_assoc front part,
      dropBytes_append]
    rfl

theorem EditRange.Fits.startsBefore_of_splice {before : Text} {range other : EditRange}
    (fits : range.Fits before) (fits' : other.Fits before)
    (same : (range.splice before).start = (other.splice before).start) :
    startsBefore range other := by
  obtain ⟨front, rest, whole, start⟩ := fits.start
  obtain ⟨front', rest', whole', start'⟩ := fits'.start
  have upTo : takeBytes before range.start = front := by rw [whole, start, takeBytes_append]
  have upTo' : takeBytes before other.start = front' := by rw [whole', start', takeBytes_append]
  simp only [EditRange.splice, upTo, upTo'] at same
  have fronts := List.append_inj_left (whole.symm.trans whole') same
  rw [startsBefore, start, start', fronts]

theorem editedText_spliced {before after : Text} {encoding : PositionEncoding} {edits : Value}
    (edited : editedText before encoding edits = .ok after) :
    ∃ items ranges, edits.asArray = some items ∧ editRanges before encoding items = .ok ranges ∧
      after = spliced (ranges.map (EditRange.splice before)) before := by
  simp only [editedText, bind_eq_ok] at edited
  obtain ⟨items, given, ranges, found, _, apart, edited⟩ := edited
  have fit := editRanges_fit found
  have separate := require_eq_ok.mp apart
  rw [Bool.not_eq_true'] at separate
  refine ⟨items, ranges, okOr_eq_ok.mp given, found, ?_⟩
  calc after
    _ = _ := (Except.ok.inj edited).symm
    _ = spliced ((ranges.insertionSort startsBefore).map (EditRange.splice before)) before :=
      foldr_replaceBytes (fun range mem => fit range (List.mem_insertionSort _ |>.mp mem))
        (pairwise_of_not_overlapping separate)
    _ = spliced (ranges.map (EditRange.splice before)) before :=
      spliced_insertionSort _ (fun range mem other mem' same =>
        (fit range mem).startsBefore_of_splice (fit other mem') same) before

section

variable {A B C : Type} [DecidableEq B] {f : A → B} {g : A → List C} {l : List A} {a : A}

theorem flatMap_of_pairwise (apart : l.Pairwise fun a b => f a ≠ f b) (mem : a ∈ l) :
    (l.flatMap fun b => if f b = f a then g b else []) = g a := by
  induction l with
  | nil => cases mem
  | cons b rest ih =>
    obtain ⟨first, later⟩ := List.pairwise_cons.mp apart
    rw [List.flatMap_cons]
    cases List.mem_cons.mp mem with
    | inl same =>
      have others : (rest.flatMap fun c => if f c = f a then g c else []) = [] := by
        rw [List.flatMap_eq_nil_iff]
        intro c mem'
        rw [same]
        exact if_neg (first c mem').symm
      rw [others, same, if_pos rfl, List.append_nil]
    | inr mem =>
      rw [if_neg (first a mem), List.nil_append]
      exact ih later mem

end

def workspacePath (codec : UriCodec) (uri : Text) : AppResult RelPath :=
  (codec.relative uri).bind RelPath.new

def editsFor (codec : UriCodec) (documents : List (Text × Value)) (path : RelPath) : List Value :=
  documents.flatMap fun entry =>
    if workspacePath codec entry.1 = .ok path then entry.2.asArray.getD [] else []

/-- The changes are one for each file, and each makes all edits of its file at once. -/
structure CompiledAtOnce {ws : Workspace} (moments : Interleaving ws) (codec : UriCodec)
    (encoding : PositionEncoding) (documents : List (Text × Value))
    (changes : List (RenameChange ws)) : Prop where
  single : changes.Pairwise fun change other => RelPath.new change.path ≠ RelPath.new other.path
  made : ∀ change ∈ changes, ∃ path moment ranges, RelPath.new change.path = .ok path ∧
    moments.Current change.path ⟨change.oldText, moment⟩ ∧
    editRanges change.oldText encoding (editsFor codec documents path) = .ok ranges ∧
    change.newText = spliced (ranges.map (EditRange.splice change.oldText)) change.oldText

namespace Interleaving

variable {ws : Workspace} {moments : Interleaving ws} {codec : UriCodec}
  {encoding : PositionEncoding} {documents : List (Text × Value)} {files later : ResultFiles}
  {changes : List (RenameChange ws)}

theorem compiledEntries_paths
    (h : moments.compiledEntries codec encoding files documents = .ok (changes, later)) :
    (documents.map fun entry => workspacePath codec entry.1) =
      changes.map fun change => RelPath.new change.path := by
  induction documents generalizing files changes with
  | nil =>
    cases h
    rfl
  | cons entry rest ih =>
    simp only [compiledEntries, bind_eq_ok] at h
    obtain ⟨⟨change, between⟩, first, ⟨more, after⟩, others, h⟩ := h
    cases h
    obtain ⟨-, file, -, relative, -⟩ := compiledEntry_reads first
    rw [List.map_cons, List.map_cons, ih others, workspacePath, relative]
    rfl

theorem compiledEntries_made
    (h : moments.compiledEntries codec encoding files documents = .ok (changes, later)) :
    ∀ change ∈ changes, ∃ entry ∈ documents, codec.relative entry.1 = .ok change.path ∧
      editedText change.oldText encoding entry.2 = .ok change.newText := by
  induction documents generalizing files changes with
  | nil =>
    cases h
    exact nofun
  | cons entry rest ih =>
    simp only [compiledEntries, bind_eq_ok] at h
    obtain ⟨⟨change, between⟩, first, ⟨more, after⟩, others, h⟩ := h
    cases h
    obtain ⟨-, file, -, relative, -, edited⟩ := compiledEntry_reads first
    refine List.forall_mem_cons.mpr ⟨⟨entry, List.mem_cons_self, relative, edited⟩, ?_⟩
    intro change mem
    obtain ⟨other, mem', made⟩ := ih others change mem
    exact ⟨other, List.mem_cons_of_mem _ mem', made⟩

theorem single_iff
    (h : moments.compiledEntries codec encoding files documents = .ok (changes, later)) :
    (changes.Pairwise fun change other => RelPath.new change.path ≠ RelPath.new other.path) ↔
      documents.Pairwise fun entry other =>
        workspacePath codec entry.1 ≠ workspacePath codec other.1 := by
  have paths := compiledEntries_paths h
  have both := congrArg (List.Pairwise (· ≠ ·)) paths
  rw [List.pairwise_map, List.pairwise_map] at both
  exact Iff.of_eq both.symm

end Interleaving

/-- A workspace edit is compiled to its meaning exactly when no two of its entries name the
same file. -/
theorem workspaceEdit_simultaneous_iff {ws : Workspace} {moments : Interleaving ws}
    {codec : UriCodec} {edit : Value} {encoding : PositionEncoding} {clock : Nat}
    {later : ResultFiles} {changes : List (RenameChange ws)} {documents : List (Text × Value)}
    (given : editedDocuments edit = .ok documents)
    (compiled : moments.workspaceEditChanges codec ⟨clock, ∅⟩ edit encoding = .ok (changes, later)) :
    CompiledAtOnce moments codec encoding documents changes ↔
      documents.Pairwise fun entry other =>
        workspacePath codec entry.1 ≠ workspacePath codec other.1 := by
  have entries : moments.compiledEntries codec encoding ⟨clock, ∅⟩ documents =
      .ok (changes, later) := by
    rw [Interleaving.workspaceEditChanges, given] at compiled
    exact compiled
  constructor
  · intro made
    exact (Interleaving.single_iff entries).mp made.single
  · intro apart
    refine ⟨(Interleaving.single_iff entries).mpr apart, fun change mem => ?_⟩
    obtain ⟨path, named⟩ := Interleaving.named_of_compiled compiled mem
    obtain ⟨moment, current⟩ := Interleaving.current_of_compiled entries mem
    obtain ⟨entry, mem', relative, edited⟩ := Interleaving.compiledEntries_made entries change mem
    obtain ⟨items, ranges, array, found, after⟩ := editedText_spliced edited
    have names : workspacePath codec entry.1 = .ok path := by
      rw [workspacePath, relative]
      exact named
    have only : editsFor codec documents path = items := by
      rw [editsFor, ← names, flatMap_of_pairwise apart mem', array]
      rfl
    rw [← only] at found
    exact ⟨path, moment, ranges, named, current, found, after⟩

namespace Sample

def placing (start stop : Nat) (text : String) : Value :=
  json [
    ("range", json [("start", json [("line", .number 0), ("character", .number start)]),
      ("end", json [("line", .number 0), ("character", .number stop)])]),
    ("newText", .str text)]

def editBoth : Value :=
  json [
    ("changes", json [("file:///w/b",
      .list [placing 3 3 "x", placing 0 0 "u", placing 0 0 "v", placing 0 2 "L"])]),
    ("documentChanges", .list [json [("textDocument", json [("uri", .str "file:///w/a")]),
      ("edits", .list [placing 1 1 "!"])]])]

def compiledBoth : AppResult (List (RenameChange declaring) × ResultFiles) :=
  (referencesF fun _ => []).workspaceEditChanges (.new false "/w".toList none) ⟨4, ∅⟩ editBoth
    .utf16

def startingB (text : String) : Value := .list [placing 0 0 text]

def twiceB : Value :=
  json [("changes", json [("file:///w/%62", startingB "y"), ("file:///w/b", startingB "x")])]

def compiledTwiceB : AppResult (List (RenameChange declaring) × ResultFiles) :=
  (referencesF fun _ => []).workspaceEditChanges (.new false "/w".toList none) ⟨4, ∅⟩ twiceB .utf16

end Sample

open Sample in
theorem workspaceEdit_simultaneous_both :
    ∃ documents changes later, editedDocuments editBoth = .ok documents ∧
      compiledBoth = .ok (changes, later) ∧
      changes.map (fun change => (change.path, change.newText)) =
        [("b".toList, "uvLdx\n".toList), ("a".toList, "f!\n".toList)] ∧
      CompiledAtOnce (referencesF fun _ => []) (.new false "/w".toList none) .utf16 documents
        changes := by
  have facts : (compiledBoth.toOption.any fun compiled =>
      compiled.1.map (fun change => (change.path, change.newText)) =
        [("b".toList, "uvLdx\n".toList), ("a".toList, "f!\n".toList)]) = true := by
    decide +kernel
  have apart : ((editedDocuments editBoth).toOption.any fun documents =>
      documents.Pairwise fun entry other =>
        (workspacePath (.new false "/w".toList none) entry.1).toOption ≠
          (workspacePath (.new false "/w".toList none) other.1).toOption) = true := by
    decide +kernel
  obtain ⟨⟨changes, later⟩, compiled, texts⟩ := (Option.any_eq_true _ _).mp facts
  obtain ⟨documents, given, apart⟩ := (Option.any_eq_true _ _).mp apart
  have compiled := eq_ok_of_toOption compiled
  have given := eq_ok_of_toOption given
  exact ⟨documents, changes, later, given, compiled, of_decide_eq_true texts,
    (workspaceEdit_simultaneous_iff given compiled).mpr
      ((of_decide_eq_true apart).imp fun other same => other (congrArg Except.toOption same))⟩

open Sample in
-- Each spelling of the URI gives a change of its own.
theorem not_compiledAtOnce :
    ∃ documents changes later, editedDocuments twiceB = .ok documents ∧
      compiledTwiceB = .ok (changes, later) ∧
      ¬CompiledAtOnce (referencesF fun _ => []) (.new false "/w".toList none) .utf16 documents
        changes := by
  have facts : (compiledTwiceB.toOption.any fun compiled =>
      compiled.1.map RenameChange.path = [pathB.text, pathB.text]) = true := by decide +kernel
  obtain ⟨⟨changes, later⟩, compiled, paths⟩ := (Option.any_eq_true _ _).mp facts
  have both := of_decide_eq_true paths
  have compiled := eq_ok_of_toOption compiled
  have accepted := compiled
  simp only [compiledTwiceB, Interleaving.workspaceEditChanges, bind_eq_ok] at accepted
  obtain ⟨documents, given, -⟩ := accepted
  refine ⟨documents, changes, later, given, compiled, fun made => ?_⟩
  have single := made.single
  rw [← @List.pairwise_map _ _ _ (fun path other => RelPath.new path ≠ RelPath.new other), both]
    at single
  exact (List.pairwise_pair.mp single) rfl

end CodeWeave
