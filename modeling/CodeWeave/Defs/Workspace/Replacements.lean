import CodeWeave.Defs.Workspace.MatchLaws
import CodeWeave.Defs.Workspace.Sequential

namespace CodeWeave

open Splices

structure ExactReplacement where
  source : Text
  oldText : Text
  newText : Text
  expected : Nat
  expectedHash : Option ContentHash

namespace ExactReplacement

def change (exact : ExactReplacement) : Change :=
  .replace exact.source exact.oldText exact.newText exact.expected exact.expectedHash none

def adjustedOld (exact : ExactReplacement) (content : Text) : Text :=
  (matchingOldText content content exact.oldText exact.expected).1

def adjustedNew (exact : ExactReplacement) (content : Text) : Text :=
  preserveTerminalLineEnding (exact.adjustedOld content)
    (normalizeLineEndingsForContent content exact.newText)

def starts (exact : ExactReplacement) (content : Text) : List Nat :=
  matchIndices content (exact.adjustedOld content)

def splices (exact : ExactReplacement) (content : Text) : List (Splice Char) :=
  (exact.starts content).map fun start =>
    ⟨start, start + (exact.adjustedOld content).length, exact.adjustedNew content,
      Nat.le_add_right _ _⟩

end ExactReplacement

def allSplices (exacts : List ExactReplacement) (content : Text) : List (Splice Char) :=
  exacts.flatMap fun exact => exact.splices content

theorem allSplices_cons (exact : ExactReplacement) (rest : List ExactReplacement)
    (content : Text) : allSplices (exact :: rest) content =
      exact.splices content ++ allSplices rest content := List.flatMap_cons

/-- The replacements before each one leave its texts as they are, and leave it the
matches it has in the original content and no others, where they have moved them. -/
def Undisturbed (content : Text) : List (Splice Char) → List ExactReplacement → Prop
  | _, [] => True
  | done, exact :: rest =>
    exact.adjustedOld (spliced done content) = exact.adjustedOld content ∧
      exact.adjustedNew (spliced done content) = exact.adjustedNew content ∧
      exact.starts (spliced done content) = (exact.starts content).map (moved done content) ∧
      Undisturbed content (done ++ exact.splices content) rest

theorem addRanges_ok {path : Text} {found existing out : List (Nat × Nat)}
    (h : addRanges path found existing = .ok out) : out = existing ++ found ∧
      (existing.Pairwise (fun range other => overlaps other range = false) →
        out.Pairwise fun range other => overlaps other range = false) := by
  induction found generalizing existing with
  | nil => cases h; exact ⟨(List.append_nil _).symm, id⟩
  | cons range found ih =>
    rw [addRanges] at h
    split at h
    · cases h
    · next free =>
      have there := ih h
      refine ⟨by rw [there.1, List.append_assoc]; rfl, fun apart => there.2 ?_⟩
      refine List.pairwise_append.mpr ⟨apart, List.pairwise_singleton _ _, ?_⟩
      intro other mem last inLast
      rw [List.mem_singleton.mp inLast]
      simp only [List.any_eq_true, not_exists, not_and, Bool.not_eq_true] at free
      exact free other mem

section

variable {ws : Workspace} {index : CodeIndex} {path : RelPath} {content : Text}

theorem preflightRanges_exact {exact : ExactReplacement} {ranges : List (Nat × Nat)}
    (indexed : (index.get path.text).map FileEntry.content = some content)
    (h : ws.preflightRanges index exact.change path.text = .ok ranges) :
    ranges = (exact.splices content).map fun splice => (splice.start, splice.stop) := by
  obtain ⟨file, found, rfl⟩ := Option.map_eq_some_iff.mp indexed
  simp only [Workspace.preflightRanges, found, okOr, ExactReplacement.change, bind_eq_ok,
    Except.ok.injEq, exists_eq_left', Workspace.editHandle, Change.handle] at h
  obtain ⟨-, -, h⟩ := h
  rw [← h, ExactReplacement.splices, List.map_map, ExactReplacement.starts]
  refine List.map_congr_left fun start _ => ?_
  simp only [Nat.zero_add, Function.comp, ExactReplacement.adjustedOld]

theorem preflightEach_exact {exacts : List ExactReplacement} {done : List (Splice Char)}
    {ranges : Text → List (Nat × Nat)}
    (indexed : (index.get path.text).map FileEntry.content = some content)
    (onFile : ∀ exact ∈ exacts, normalizePathText exact.source = path.text)
    (here : ranges path.text = done.map fun splice => (splice.start, splice.stop))
    (apart : done.Pairwise fun e f => ¬Overlap e f)
    (h : ws.preflightEach index (exacts.map ExactReplacement.change) ranges = .ok ()) :
    (done ++ allSplices exacts content).Pairwise
      fun e f => ¬Overlap e f := by
  induction exacts generalizing done ranges with
  | nil =>
    rw [allSplices, List.flatMap_nil, List.append_nil]
    exact apart
  | cons exact rest ih =>
    have source := onFile exact List.mem_cons_self
    simp only [List.map_cons, ExactReplacement.change, Workspace.preflightEach, bind_eq_ok,
      Change.path, source] at h
    obtain ⟨found, finds, existing, adds, later⟩ := h
    have added := addRanges_ok adds
    rw [preflightRanges_exact indexed finds, here, ← List.map_append] at added
    have disjoint : ∀ splices : List (Splice Char),
        ((splices.map fun splice => (splice.start, splice.stop)).Pairwise fun range other =>
          overlaps other range = false) ↔ splices.Pairwise fun e f => ¬Overlap e f := by
      intro splices
      rw [List.pairwise_map]
      refine List.Pairwise.iff fun e f => ?_
      simp only [overlaps, Overlap, Bool.and_eq_false_iff, decide_eq_false_iff_not, not_and_or]
      exact or_comm
    rw [allSplices_cons, ← List.append_assoc]
    refine ih (fun other mem => onFile other (List.mem_cons_of_mem _ mem)) (by rw [if_pos rfl, added.1])
      ?_ later
    rw [← disjoint, ← added.1]
    apply added.2
    rw [disjoint]
    exact apart

theorem planEdit_preflight {request : EditRequest} {disk : Disk} {shared : Reconciled}
    {edit : PlannedEdit} (h : ws.planEdit request disk shared = .ok edit) :
    ws.preflightEach shared.index request.changes (fun _ => []) = .ok () := by
  simp only [Workspace.planEdit, bind_eq_ok] at h
  obtain ⟨-, -, -, -, _, preflight, -⟩ := h
  rw [Workspace.preflightOverlaps] at preflight
  split at preflight
  · cases preflight
  · exact preflight

end

section

variable {ws : Workspace} {path : RelPath} {content : Text} {exact : ExactReplacement}
  {done : List (Splice Char)}

theorem increasing_splices (exact : ExactReplacement) (content : Text) :
    (exact.splices content).Pairwise fun e f => e.start < f.start ∧ ¬Overlap e f := by
  rw [ExactReplacement.splices, List.pairwise_map]
  refine (increasing_matchIndicesFrom content 0 0).imp fun {first second} apart => ?_
  refine ⟨apart.1, fun overlap => ?_⟩
  simp only [Overlap] at overlap
  omega

theorem splices_bound {splice : Splice Char} (mem : splice ∈ exact.splices content) :
    splice.stop ≤ content.length := by
  obtain ⟨start, found, rfl⟩ := List.mem_map.mp mem
  have := (mem_matchIndicesFrom found).2
  rwa [Nat.zero_add] at this

theorem replacedText_undisturbed {after : Text}
    (old : exact.adjustedOld (spliced done content) = exact.adjustedOld content)
    (new : exact.adjustedNew (spliced done content) = exact.adjustedNew content)
    (starts : exact.starts (spliced done content) = (exact.starts content).map (moved done content))
    (apart : ∀ e ∈ done, ∀ f ∈ exact.splices content, ¬Overlap e f)
    (h : replacedText (spliced done content) exact.oldText exact.newText exact.expected path none =
      .ok after) : after = spliced (done ++ (exact.splices content).reverse) content := by
  simp only [replacedText, bind_eq_ok, require_eq_ok, decide_eq_true_eq, Except.ok.injEq] at h
  obtain ⟨-, count, rfl⟩ := h
  rw [matchingOldText_count] at count
  have made : replacen (spliced done content) (exact.adjustedOld (spliced done content))
      (exact.adjustedNew (spliced done content)) exact.expected =
        (exact.starts (spliced done content)).foldr
          (fun start acc => replaceAt acc start (exact.adjustedOld (spliced done content)).length
            (exact.adjustedNew (spliced done content))) (spliced done content) := by
    rw [← count]
    exact replacen_matchIndices _ _
  rw [spliced_append_reverse apart (increasing_splices exact content) fun f mem => splices_bound mem]
  refine made.trans ?_
  rw [starts, old, new, ExactReplacement.splices, List.foldr_map, List.foldr_map]
  simp only [Nat.add_sub_cancel_left]

def Anchored (done : List (Splice Char)) : Prop :=
  ∀ e ∈ done, e.start = e.stop → ∃ f ∈ done, f.start = 0 ∧ f.stop = 0 ∧ f.text = e.text

theorem adjustedOld_of_insertion {splice : Splice Char} (mem : splice ∈ exact.splices content)
    (insertion : splice.start = splice.stop) : exact.adjustedOld content = [] := by
  obtain ⟨start, -, rfl⟩ := List.mem_map.mp mem
  simp only at insertion
  exact List.length_eq_zero_iff.mp (by omega)

theorem starts_of_empty (empty : exact.adjustedOld content = []) :
    ∃ rest, exact.starts content = 0 :: rest := by
  rw [ExactReplacement.starts, empty]
  exact matchIndices_nil content

theorem Anchored.append (anchored : Anchored done) : Anchored (done ++ exact.splices content) := by
  intro e mem insertion
  cases List.mem_append.mp mem with
  | inl before =>
    obtain ⟨f, inDone, there⟩ := anchored e before insertion
    exact ⟨f, List.mem_append_left _ inDone, there⟩
  | inr here =>
    have empty := adjustedOld_of_insertion here insertion
    obtain ⟨rest, starts⟩ := starts_of_empty empty
    obtain ⟨start, -, rfl⟩ := List.mem_map.mp here
    refine ⟨⟨0, 0 + (exact.adjustedOld content).length, exact.adjustedNew content,
      Nat.le_add_right _ _⟩, List.mem_append_right _ (List.mem_map.mpr ⟨0, ?_, rfl⟩), rfl, ?_, rfl⟩
    · rw [starts]
      exact List.mem_cons_self
    · rw [empty]
      rfl

theorem insertions_empty (anchored : Anchored done)
    (old : exact.adjustedOld (spliced done content) = exact.adjustedOld content)
    (starts : exact.starts (spliced done content) = (exact.starts content).map (moved done content))
    (empty : exact.adjustedOld content = []) {e : Splice Char} (mem : e ∈ done)
    (insertion : e.start = e.stop) : e.text = [] := by
  obtain ⟨rest, original⟩ := starts_of_empty empty
  obtain ⟨rest', current⟩ := starts_of_empty (old.trans empty)
  rw [original, current, List.map_cons, List.cons.injEq] at starts
  have unmoved := starts.1.symm
  rw [moved, List.take_zero, spliced, List.length_eq_zero_iff] at unmoved
  obtain ⟨f, inDone, start, stop, text⟩ := anchored e mem insertion
  have nothing : inserted done 0 = [] := unmoved
  rw [inserted, List.flatMap_eq_nil_iff] at nothing
  rw [← text]
  exact nothing f (List.mem_filter.mpr ⟨inDone, by simp [isInsertion, start, stop]⟩)

theorem compatible_append (anchored : Anchored done) (compatible : done.Pairwise Compatible)
    (old : exact.adjustedOld (spliced done content) = exact.adjustedOld content)
    (starts : exact.starts (spliced done content) = (exact.starts content).map (moved done content))
    (apart : ∀ e ∈ done, ∀ f ∈ exact.splices content, ¬Overlap e f) :
    (done ++ exact.splices content).Pairwise Compatible := by
  refine List.pairwise_append.mpr ⟨compatible, ?_, fun e inDone f mem => ⟨apart e inDone f mem, ?_⟩⟩
  · refine (increasing_splices exact content).imp fun {e f} increasing => ?_
    exact ⟨increasing.2, fun same => absurd same (by have := increasing.1; omega)⟩
  · intro same insertion there
    have empty := adjustedOld_of_insertion mem there.symm
    exact .inl (insertions_empty anchored old starts empty inDone insertion.symm)

theorem applyInTurn_undisturbed {exacts : List ExactReplacement} {files files' : Files}
    (onFile : ∀ exact ∈ exacts, RelPath.new exact.source = .ok path)
    (here : files path = some (spliced done content))
    (undisturbed : Undisturbed content done exacts)
    (apart : (done ++ allSplices exacts content).Pairwise
      fun e f => ¬Overlap e f)
    (compatible : done.Pairwise Compatible) (anchored : Anchored done)
    (h : ws.applyInTurn (exacts.map ExactReplacement.change) files = some files') :
    files' path = some (spliced (done ++ allSplices exacts content) content) ∧
      (done ++ allSplices exacts content).Pairwise Compatible := by
  induction exacts generalizing done files with
  | nil =>
    cases h
    rw [allSplices, List.flatMap_nil, List.append_nil]
    exact ⟨here, compatible⟩
  | cons exact rest ih =>
    obtain ⟨old, new, starts, later⟩ := undisturbed
    have disjoint : ∀ e ∈ done, ∀ f ∈ exact.splices content, ¬Overlap e f := by
      intro e mem f inside
      refine (List.pairwise_append.mp apart).2.2 e mem f ?_
      rw [allSplices_cons]
      exact List.mem_append_left _ inside
    rw [List.map_cons, Workspace.applyInTurn, List.foldlM_cons] at h
    obtain ⟨next, alone, h⟩ := Option.bind_eq_some_iff.mp h
    have source := onFile exact List.mem_cons_self
    simp only [Workspace.applyAlone, ExactReplacement.change, Change.path, source,
      Workspace.editHandle, Change.handle, Except.toOption, Option.bind_eq_bind, Option.bind_some,
      here] at alone
    cases replaced : replacedText (spliced done content) exact.oldText exact.newText exact.expected
        path none with
    | error error =>
      rw [replaced] at alone
      cases alone
    | ok after =>
      rw [replaced] at alone
      cases alone
      have joined := compatible_append anchored compatible old starts disjoint
      have reversed : (done ++ (exact.splices content).reverse).Perm (done ++ exact.splices content) :=
        (List.reverse_perm _).append_left done
      have made : after = spliced (done ++ exact.splices content) content := by
        rw [replacedText_undisturbed old new starts disjoint replaced]
        exact (spliced_perm reversed.symm joined content).symm
      rw [allSplices_cons, ← List.append_assoc] at apart ⊢
      refine ih (fun other mem => onFile other (List.mem_cons_of_mem _ mem)) ?_ later apart joined
        anchored.append h
      rw [Files.set, if_pos rfl, made]

end

theorem planEdit_nonempty {ws : Workspace} {request : EditRequest} {disk : Disk}
    {shared : Reconciled} {edit : PlannedEdit} (h : ws.planEdit request disk shared = .ok edit) :
    request.changes ≠ [] := by
  simp only [Workspace.planEdit, bind_eq_ok, require_eq_ok, decide_eq_true_eq] at h
  exact h.choose_spec.1

theorem eq_singleton_of_nodup_map {A B : Type} {f : A → B} {b : B} {as : List A}
    (nodup : (as.map f).Nodup) (all : ∀ a ∈ as, f a = b) {a : A} (mem : a ∈ as) : as = [a] := by
  match as with
  | [] => cases mem
  | [only] => rw [List.mem_singleton.mp mem]
  | first :: second :: rest =>
    have apart := (List.nodup_cons.mp nodup).1
    rw [all first List.mem_cons_self, List.map_cons, all second (by simp)] at apart
    exact absurd List.mem_cons_self apart

section

variable {ws : Workspace} {path : RelPath} {content : Text} {exacts : List ExactReplacement}
  {request : EditRequest} {disk : Disk} {shared : Reconciled} {edit : PlannedEdit}

theorem planned_replacements (changes : request.changes = exacts.map ExactReplacement.change)
    (onFile : ∀ exact ∈ exacts, RelPath.new exact.source = .ok path)
    (accepted : ws.planEdit request disk shared = .ok edit) {files : Files}
    (made : ws.applyInTurn request.changes (indexedFiles shared.index) = some files) :
    edit.planned.map (fun item => (item.path, item.after)) = [(path, files path)] := by
  obtain ⟨plan, planned, sorted, -⟩ := ws.planEdit_ok accepted
  have keyed := ws.planChanges_keyed planned
  have keys : ∀ key, (plan.lookup key).isSome ↔ key = path := by
    intro key
    rw [(ws.planChanges_keys planned).2 key, changes]
    simp only [AList.lookup_empty, Option.isSome_none, Bool.false_eq_true, false_or,
      List.flatMap_map]
    constructor
    · rintro ⟨text, mem, new⟩
      obtain ⟨exact, inList, here⟩ := List.mem_flatMap.mp mem
      have source : text = exact.source := List.mem_singleton.mp here
      rw [source, onFile exact inList] at new
      exact (Except.ok.inj new).symm
    · intro same
      cases exacts with
      | nil => exact absurd changes (planEdit_nonempty accepted)
      | cons exact rest =>
        rw [same]
        exact ⟨exact.source, List.mem_flatMap.mpr ⟨exact, List.mem_cons_self, List.mem_cons_self⟩,
          onFile exact List.mem_cons_self⟩
  have present := (keys path).mpr rfl
  obtain ⟨item, found⟩ := Option.isSome_iff_exists.mp present
  have here := keyed path item found
  have only : sortPlan plan = [item] := by
    have same : ∀ other ∈ sortPlan plan, other.path = path := by
      intro other mem
      apply (keys other.path).mp
      rw [(mem_sortPlan keyed).mp mem]
      rfl
    exact eq_singleton_of_nodup_map (nodup_sortPlan keyed) same
      ((mem_sortPlan keyed).mpr (by rw [here, found]))
  have final := applyInTurn_of_planChanges planned
  rw [plannedContent_empty, made, Option.some.injEq] at final
  rw [sorted, only, final, plannedContent, found, List.map_singleton, here]

theorem planned_undisturbed (changes : request.changes = exacts.map ExactReplacement.change)
    (onFile : ∀ exact ∈ exacts, normalizePathText exact.source = path.text)
    (indexed : (shared.index.get path.text).map FileEntry.content = some content)
    (accepted : ws.planEdit request disk shared = .ok edit)
    (undisturbed : Undisturbed content [] exacts) :
    edit.planned.map (fun item => (item.path, item.after)) =
        [(path, some (spliced (allSplices exacts content) content))] ∧
      (allSplices exacts content).Pairwise Compatible := by
  have named : ∀ exact ∈ exacts, RelPath.new exact.source = .ok path := by
    intro exact mem
    rw [← RelPath.new_normalizePathText, onFile exact mem, RelPath.new_self]
  have preflight := planEdit_preflight accepted
  rw [changes] at preflight
  have apart : ([] ++ allSplices exacts content).Pairwise
      fun e f => ¬Overlap e f :=
    preflightEach_exact indexed onFile rfl List.Pairwise.nil preflight
  have made := (planEdit_in_turn ws request disk shared edit accepted).1
  have run := made
  rw [changes] at run
  have start : indexedFiles shared.index path = some (spliced [] content) := by
    rw [indexedFiles, indexed, spliced_nil]
  have final := applyInTurn_undisturbed named start undisturbed apart List.Pairwise.nil
    (by simp [Anchored]) run
  rw [planned_replacements changes named accepted made, final.1]
  exact ⟨rfl, final.2⟩

end

/-- Two accepted orders of the same replacements plan the content with all of them
made at once, as long as none of them disturbs a later one. -/
theorem replacements_in_any_order (ws : Workspace) (path : RelPath) (content : Text)
    (exacts exacts' : List ExactReplacement) (perm : exacts.Perm exacts')
    (request request' : EditRequest) (changes : request.changes = exacts.map ExactReplacement.change)
    (changes' : request'.changes = exacts'.map ExactReplacement.change)
    (onFile : ∀ exact ∈ exacts, normalizePathText exact.source = path.text)
    (disk : Disk) (shared : Reconciled)
    (indexed : (shared.index.get path.text).map FileEntry.content = some content)
    (edit edit' : PlannedEdit) (accepted : ws.planEdit request disk shared = .ok edit)
    (accepted' : ws.planEdit request' disk shared = .ok edit')
    (undisturbed : Undisturbed content [] exacts) (undisturbed' : Undisturbed content [] exacts') :
    edit.planned.map (fun item => (item.path, item.after)) =
        [(path, some (spliced (allSplices exacts content) content))] ∧
      edit'.planned.map (fun item => (item.path, item.after)) =
        [(path, some (spliced (allSplices exacts content) content))] := by
  have first := planned_undisturbed changes onFile indexed accepted undisturbed
  have second := planned_undisturbed changes'
    (fun exact mem => onFile exact (perm.mem_iff.mpr mem)) indexed accepted' undisturbed'
  have same : spliced (allSplices exacts content) content =
      spliced (allSplices exacts' content) content :=
    spliced_perm (perm.flatMap_right _) first.2 content
  exact ⟨first.1, by rw [second.1, same]⟩

namespace Sample

def oneFile (content : String) : World :=
  World.opened .plain (Disk.holding [(["a".toList], content.toList)])

def exactly (content : String) (pairs : List (String × String)) : List ExactReplacement :=
  pairs.map fun pair => ⟨"a".toList, pair.1.toList, pair.2.toList, 1, some content.toList⟩

def replacing (exacts : List ExactReplacement) : EditRequest :=
  ⟨exacts.map ExactReplacement.change, none, true⟩

def oneTwo : List ExactReplacement := exactly "one\ntwo\n" [("one", "1"), ("two", "2")]

def twoOne : List ExactReplacement := exactly "one\ntwo\n" [("two", "2"), ("one", "1")]

def joining : List ExactReplacement := exactly "xaa" [("x", "a"), ("aa", "b")]

def joiningLast : List ExactReplacement := exactly "xaa" [("aa", "b"), ("x", "a")]

def previewing (before after : String) : PlannedEdit :=
  .preview [⟨pathA, some before.toList, some before.toList, some after.toList⟩]

end Sample

open Sample in
theorem replacements_in_any_order_lines :
    (previewing "one\ntwo\n" "1\n2\n").planned.map (fun item => (item.path, item.after)) =
        [(pathA, some (spliced (allSplices oneTwo "one\ntwo\n".toList) "one\ntwo\n".toList))] ∧
      (previewing "one\ntwo\n" "1\n2\n").planned.map (fun item => (item.path, item.after)) =
        [(pathA, some (spliced (allSplices oneTwo "one\ntwo\n".toList) "one\ntwo\n".toList))] :=
  replacements_in_any_order .plain pathA "one\ntwo\n".toList oneTwo twoOne (.swap _ _ [])
    (replacing oneTwo) (replacing twoOne) rfl rfl (by decide) (oneFile "one\ntwo\n").disk
    (oneFile "one\ntwo\n").state.shared rfl (previewing "one\ntwo\n" "1\n2\n")
    (previewing "one\ntwo\n" "1\n2\n") rfl rfl ⟨rfl, rfl, rfl, rfl, rfl, rfl, trivial⟩
    ⟨rfl, rfl, rfl, rfl, rfl, rfl, trivial⟩

-- The new `a` makes a match with the first of the two that were there.
open Sample in
theorem replacements_in_two_orders :
    joining.Perm joiningLast ∧
      Workspace.plain.planEdit (replacing joining) (oneFile "xaa").disk (oneFile "xaa").state.shared =
        .ok (previewing "xaa" "ba") ∧
      Workspace.plain.planEdit (replacing joiningLast) (oneFile "xaa").disk
          (oneFile "xaa").state.shared = .ok (previewing "xaa" "ab") :=
  ⟨.swap _ _ [], rfl, rfl⟩

end CodeWeave
