import CodeWeave.Defs.Index.Query
import CodeWeave.Defs.Workspace.EditLaws
import CodeWeave.Defs.Workspace.LineEndingLaws

/-! Replacing a range of lines by others.  The terminator the new text lacks is put back,
unless its last line is blank, when the text seems to have one. -/

namespace CodeWeave

open Pieces

theorem newline_suffix_iff {text : Text} : ['\n'] <:+ text ↔ text.getLast? = some '\n' := by
  rw [List.getLast?_eq_some_iff]
  exact ⟨fun ⟨front, eq⟩ => ⟨front, eq.symm⟩, fun ⟨front, eq⟩ => ⟨front, eq.symm⟩⟩

theorem ended_iff {text : Text} : Ended '\n' text ↔ text = [] ∨ ['\n'] <:+ text := by
  rw [newline_suffix_iff]
  cases last : text.getLast? with
  | none =>
    rw [List.getLast?_eq_none_iff] at last
    exact iff_of_true (last ▸ ended_nil) (.inl last)
  | some c =>
    have nonempty : text ≠ [] := by
      rintro rfl
      cases last
    constructor
    · intro ended
      exact .inr (by rw [ended c last])
    · intro newline d final
      rw [last] at final
      cases final
      exact Option.some.inj (newline.resolve_left nonempty)

/-- A content without bare carriage returns and with one kind of terminator. -/
def Uniform (content : Text) : Prop := lineEndingLabel content ≠ .mixed

instance (content : Text) : Decidable (Uniform content) := inferInstanceAs (Decidable (_ ≠ _))

theorem Uniform.cases {content : Text} (uniform : Uniform content) :
    (lineEndingLabel content = .crlf ∧ AllCrlf content) ∨
      (lineEndingLabel content = .lf ∧ '\r' ∉ content) ∨
      (lineEndingLabel content = .none ∧ '\r' ∉ content ∧ '\n' ∉ content) := by
  cases label : lineEndingLabel content with
  | crlf => exact .inl ⟨rfl, (lineEndingLabel_crlf.mp label).1⟩
  | lf => exact .inr (.inl ⟨rfl, (lineEndingLabel_lf.mp label).1⟩)
  | none => exact .inr (.inr ⟨rfl, lineEndingLabel_none.mp label⟩)
  | mixed => exact absurd label uniform

/-- The lines of a file that a handle made for its present content stands for. -/
structure FreshRange (ws : Workspace) (index : CodeIndex) (path : RelPath) (token content : Text)
    (startLine endLine : Nat) : Prop where
  indexed : (index.get path.text).map FileEntry.content = some content
  decoded : ws.decodeHandle token =
    .ok ⟨ws.id, path.text, startLine, endLine, ws.contentHash content⟩
  low : 1 ≤ startLine
  order : startLine ≤ endLine
  within : endLine ≤ max (lines content).length 1

/-- Planning the replacement replaces the lines of the range by others, and leaves the file
as it is where they are the lines it has there. -/
def ReplacesLines (ws : Workspace) (index : CodeIndex) (plan : EditPlan) (hasSnapshot : Bool)
    (path : RelPath) (token content : Text) (startLine endLine : Nat) (parts : List Text)
    (newText : Text) : Prop :=
  ∃ plan' item after,
    ws.planChange (.replaceRange path.text token newText) hasSnapshot plan index = .ok plan' ∧
    plan'.lookup path = some item ∧ item.after = some after ∧
    lines after = (lines content).take (startLine - 1) ++ parts ++ (lines content).drop endLine ∧
    (parts = ((lines content).take endLine).drop (startLine - 1) → after = content)

def rangeReplaced (content : Text) (startLine endLine : Nat) (newText : Text) : Text :=
  linesBetween content 0 (startLine - 1) ++
    preserveTerminalLineEnding (linesBetween content (startLine - 1) endLine)
      (normalizeLineEndingsForContent content newText) ++
    linesBetween content endLine (max endLine (lines content).length)

variable {ws : Workspace} {index : CodeIndex} {plan : EditPlan} {hasSnapshot : Bool}
  {path : RelPath} {token content : Text} {startLine endLine : Nat}

theorem FreshRange.planned
    (fresh : FreshRange ws index path token content startLine endLine) (hasSnapshot : Bool)
    (unplanned : plan.lookup path = none) (newText : Text) :
    ∃ plan' item, ws.planChange (.replaceRange path.text token newText) hasSnapshot plan index =
        .ok plan' ∧ plan'.lookup path = some item ∧
      item.after = some (rangeReplaced content startLine endLine newText) := by
  have named : RelPath.new (Change.replaceRange path.text token newText).path = .ok path :=
    RelPath.new_self path
  have decoded : ws.editHandle (.replaceRange path.text token newText) path.text =
      .ok (some ⟨ws.id, path.text, startLine, endLine, ws.contentHash content⟩) := by
    simp [Workspace.editHandle, Change.handle, fresh.decoded, require, bind, Except.bind]
  obtain ⟨start, stop, range, above, between, below⟩ := lineRange_eq content fresh.order
  have current : ws.planChange (.replaceRange path.text token newText) hasSnapshot plan index = _ :=
    ws.planChange_current named decoded rfl unplanned fresh.indexed
  have applied : ws.applyChange (.replaceRange path.text token newText) path
      (some ⟨ws.id, path.text, startLine, endLine, ws.contentHash content⟩) (some content) plan
      index = .ok (putPlan ws plan path (some content)
        (some (rangeReplaced content startLine endLine newText))) := by
    simp only [Workspace.applyChange, okOr, range, bind, Except.bind, replaceRange, above, between,
      below, rangeReplaced]
  refine ⟨_, _, current.trans applied, by rw [lookup_putPlan, if_pos rfl], ?_⟩
  rw [unplanned]
  rfl

section

variable (content) (low : 1 ≤ startLine) (order : startLine ≤ endLine)
  (within : endLine ≤ max (lines content).length 1)

theorem lines_below (endLine : Nat) :
    lines (linesBetween content endLine (max endLine (lines content).length)) =
      (lines content).drop endLine := by
  rw [lines_linesBetween, List.take_of_length_le (Nat.le_max_right _ _)]

include low order within

theorem ended_above : Ended '\n' (linesBetween content 0 (startLine - 1)) := by
  by_cases first : startLine = 1
  · rw [first, Nat.sub_self, linesBetween_self]
    exact ended_nil
  · exact ended_linesBetween content (by omega)

theorem lines_replaced {replacement : Text}
    (whole : Ended '\n' replacement ∨
      linesBetween content endLine (max endLine (lines content).length) = []) :
    lines (linesBetween content 0 (startLine - 1) ++ replacement ++
        linesBetween content endLine (max endLine (lines content).length)) =
      (lines content).take (startLine - 1) ++ lines replacement ++ (lines content).drop endLine := by
  have apart : lines (replacement ++ linesBetween content endLine (max endLine (lines content).length)) =
      lines replacement ++ (lines content).drop endLine := by
    cases whole with
    | inl ended => rw [lines_append ended, lines_below]
    | inr nothing => rw [← lines_below content endLine, nothing, lines_nil, List.append_nil,
        List.append_nil]
  rw [List.append_assoc, lines_append (ended_above content low order within), apart,
    lines_linesBetween, List.drop_zero, List.append_assoc]

end

theorem normalizeForContent_joinWith (uniform : Uniform content) {ending : Text}
    (isEnding : IsEnding ending) {parts : List Text} (plain : ∀ line ∈ parts, PlainLine line) :
    ∃ other, IsEnding other ∧ (AllCrlf content → '\n' ∈ content → other = ['\r', '\n']) ∧
      ('\r' ∉ content → '\n' ∈ content → other = ['\n']) ∧
      normalizeLineEndingsForContent content (joinWith ending parts) = joinWith other parts := by
  rcases uniform.cases with ⟨label, all⟩ | ⟨label, noCarriage⟩ | ⟨label, -, noNewline⟩
  · have newline := (lineEndingLabel_crlf.mp label).2
    refine ⟨['\r', '\n'], .inr rfl, fun _ _ => rfl, fun none => ?_, ?_⟩
    · have counts := (allCrlf_iff content).mp all
      rw [List.count_eq_zero.mpr none] at counts
      exact absurd newline (List.count_eq_zero.mp (counts.1.symm.trans counts.2))
    · simp only [normalizeLineEndingsForContent, label]
      exact normalize_joinWith isEnding plain _
  · have newline := (lineEndingLabel_lf.mp label).2
    refine ⟨['\n'], .inl rfl, fun all => ?_, fun _ _ => rfl, ?_⟩
    · have counts := (allCrlf_iff content).mp all
      rw [List.count_eq_zero.mpr noCarriage] at counts
      exact absurd newline (List.count_eq_zero.mp (counts.1.symm.trans counts.2))
    · simp only [normalizeLineEndingsForContent, label]
      exact normalize_joinWith isEnding plain _
  · refine ⟨ending, isEnding, fun _ newline => absurd newline noNewline,
      fun _ newline => absurd newline noNewline, ?_⟩
    simp only [normalizeLineEndingsForContent, label]

theorem preserve_ended {selected new : Text} (ended : ['\n'] <:+ new) :
    preserveTerminalLineEnding selected new = new :=
  if_pos (.inr (.inl ended))

def restoredEnding (selected : Text) : Text :=
  if ['\n'] <:+ selected then if ['\r', '\n'] <:+ selected then ['\r', '\n'] else ['\n'] else []

theorem preserve_unended {selected new : Text} (written : new ≠ []) (unended : ¬['\n'] <:+ new) :
    preserveTerminalLineEnding selected new = new ++ restoredEnding selected := by
  rw [preserveTerminalLineEnding, restoredEnding]
  by_cases ended : ['\n'] <:+ selected
  · rw [if_neg (by simp [written, unended, ended]), if_pos ended]
    split <;> rfl
  · rw [if_pos (.inr (.inr ended)), if_neg ended, List.append_nil]

theorem crlf_suffix_of_allCrlf {text : Text} (all : AllCrlf text) (ended : ['\n'] <:+ text) :
    ['\r', '\n'] <:+ text := by
  obtain ⟨parts, last, rfl, plain, plainLast⟩ := uses_crlf all
  have blank : last = [] := by
    by_contra written
    rw [newline_suffix_iff, List.getLast?_append_of_ne_nil _ written] at ended
    exact plainLast.1 (List.mem_of_getLast? ended)
  rcases parts.eq_nil_or_concat' with rfl | ⟨init, final, rfl⟩
  · rw [blank] at ended
    exact absurd (newline_suffix_iff.mp ended) (by decide)
  · rw [blank, closeLines, List.flatMap_append, List.append_nil]
    exact ⟨closeLines ['\r', '\n'] init ++ final, by simp [closeLines]⟩

theorem restoredEnding_crlf {text : Text} (all : AllCrlf text) :
    restoredEnding text = if ['\n'] <:+ text then ['\r', '\n'] else [] := by
  rw [restoredEnding]
  by_cases ended : ['\n'] <:+ text
  · rw [if_pos ended, if_pos ended, if_pos (crlf_suffix_of_allCrlf all ended)]
  · rw [if_neg ended, if_neg ended]

theorem restoredEnding_lf {text : Text} (plain : '\r' ∉ text) :
    restoredEnding text = if ['\n'] <:+ text then ['\n'] else [] := by
  have other : ¬['\r', '\n'] <:+ text := fun suffix =>
    plain (suffix.subset List.mem_cons_self)
  rw [restoredEnding, if_neg other]

section

variable (fresh : FreshRange ws index path token content startLine endLine)
  (unplanned : plan.lookup path = none)

include fresh unplanned

theorem replacesLines_iff {parts : List Text} {newText : Text} :
    ReplacesLines ws index plan hasSnapshot path token content startLine endLine parts newText ↔
      lines (rangeReplaced content startLine endLine newText) =
          (lines content).take (startLine - 1) ++ parts ++ (lines content).drop endLine ∧
        (parts = ((lines content).take endLine).drop (startLine - 1) →
          rangeReplaced content startLine endLine newText = content) := by
  obtain ⟨plan', item, planned, found, after_eq⟩ :=
    fresh.planned hasSnapshot unplanned newText
  constructor
  · rintro ⟨other, item', after, planned', found', after_eq', replaced, unchanged⟩
    rw [planned, Except.ok.injEq] at planned'
    rw [← planned', found, Option.some.injEq] at found'
    rw [← found', after_eq, Option.some.injEq] at after_eq'
    rw [after_eq']
    exact ⟨replaced, unchanged⟩
  · rintro ⟨replaced, unchanged⟩
    exact ⟨plan', item, _, planned, found, after_eq, replaced, unchanged⟩

variable (uniform : Uniform content) {ending : Text} (isEnding : IsEnding ending)

include uniform isEnding

theorem not_replacesLines {init : List Text} (started : init ≠ [])
    (plain : ∀ line ∈ init ++ [[]], PlainLine line) :
    ¬ReplacesLines ws index plan hasSnapshot path token content startLine endLine (init ++ [[]])
      (joinWith ending (init ++ [[]])) := by
  rw [replacesLines_iff fresh unplanned]
  rintro ⟨replaced, -⟩
  obtain ⟨other, isOther, -, -, normal⟩ := normalizeForContent_joinWith uniform isEnding plain
  have closed : joinWith other (init ++ [[]]) = closeLines other init := by
    rw [joinWith_concat, List.append_nil]
  have ended : Ended '\n' (closeLines other init) := ended_closeLines isOther init
  have written : closeLines other init ≠ [] := by
    intro none
    have parts := lines_closeLines isOther
      (fun line mem => plain line (List.mem_append_left _ mem)) []
    rw [none, List.append_nil, lines_nil, List.append_nil] at parts
    exact started parts.symm
  have kept := lines_joinWith isOther plain
  rw [if_pos rfl, closed] at kept
  rw [rangeReplaced, normal, closed, preserve_ended ((ended_iff.mp ended).resolve_left written),
    lines_replaced content fresh.low fresh.order fresh.within (.inl ended), kept] at replaced
  have sizes := congrArg List.length replaced
  simp at sizes

omit unplanned uniform isEnding in
theorem newline_suffix_range (more : endLine < (lines content).length) :
    ['\n'] <:+ linesBetween content (startLine - 1) endLine := by
  refine (ended_iff.mp (ended_linesBetween content more)).resolve_left fun none => ?_
  have sizes := congrArg List.length (lines_linesBetween content (startLine - 1) endLine)
  have low := fresh.low
  have order := fresh.order
  rw [none, lines_nil, List.length_drop, List.length_take, Nat.min_eq_left more.le] at sizes
  simp at sizes
  omega

omit unplanned uniform isEnding in
theorem lines_rangeReplaced {init : List Text} {last newText other : Text} (written : last ≠ [])
    (isOther : IsEnding other) (plain : ∀ line ∈ init ++ [last], PlainLine line)
    (normal : normalizeLineEndingsForContent content newText = joinWith other (init ++ [last])) :
    rangeReplaced content startLine endLine newText =
        linesBetween content 0 (startLine - 1) ++
          (joinWith other (init ++ [last]) ++
            restoredEnding (linesBetween content (startLine - 1) endLine)) ++
          linesBetween content endLine (max endLine (lines content).length) ∧
      lines (rangeReplaced content startLine endLine newText) =
        (lines content).take (startLine - 1) ++ (init ++ [last]) ++
          (lines content).drop endLine := by
  have plainInit : ∀ line ∈ init, PlainLine line :=
    fun line mem => plain line (List.mem_append_left _ mem)
  have plainLast : PlainLine last := plain last (by simp)
  have nonempty : joinWith other (init ++ [last]) ≠ [] := by
    rw [joinWith_concat]
    exact List.append_ne_nil_of_right_ne_nil _ written
  have unended : ¬['\n'] <:+ joinWith other (init ++ [last]) := by
    rw [joinWith_concat, newline_suffix_iff, List.getLast?_append_of_ne_nil _ written]
    exact fun final => plainLast.1 (List.mem_of_getLast? final)
  have replaced : rangeReplaced content startLine endLine newText =
      linesBetween content 0 (startLine - 1) ++
      (joinWith other (init ++ [last]) ++
        restoredEnding (linesBetween content (startLine - 1) endLine)) ++
      linesBetween content endLine (max endLine (lines content).length) := by
    rw [rangeReplaced, normal, preserve_unended nonempty unended]
  refine ⟨replaced, ?_⟩
  rw [replaced]
  by_cases ended : ['\n'] <:+ linesBetween content (startLine - 1) endLine
  · have restored : IsEnding (restoredEnding (linesBetween content (startLine - 1) endLine)) := by
      rw [restoredEnding, if_pos ended]
      split
      · exact .inr rfl
      · exact .inl rfl
    have whole : Ended '\n' (joinWith other (init ++ [last]) ++
        restoredEnding (linesBetween content (startLine - 1) endLine)) := by
      have closed := ended_closeLines restored [joinWith other (init ++ [last])]
      rwa [closeLines, List.flatMap_singleton] at closed
    rw [lines_replaced content fresh.low fresh.order fresh.within (.inl whole), joinWith_concat,
      List.append_assoc (closeLines other init), lines_closeLines isOther plainInit,
      lines_closed restored plainLast]
  · have nothing : linesBetween content endLine (max endLine (lines content).length) = [] := by
      have bottom : (lines content).length ≤ endLine := by
        by_contra more
        exact ended (newline_suffix_range fresh (Nat.lt_of_not_le more))
      rw [Nat.max_eq_left bottom, linesBetween_self]
    have none : restoredEnding (linesBetween content (startLine - 1) endLine) = [] := if_neg ended
    rw [lines_replaced content fresh.low fresh.order fresh.within (.inr nothing), none,
      List.append_nil, lines_joinWith isOther plain, if_neg written]

omit unplanned isEnding in
theorem range_restored {other : Text}
    (ofCrlf : AllCrlf content → '\n' ∈ content → other = ['\r', '\n'])
    (ofLf : '\r' ∉ content → '\n' ∈ content → other = ['\n']) :
    joinWith other (((lines content).take endLine).drop (startLine - 1)) ++
        restoredEnding (linesBetween content (startLine - 1) endLine) =
      linesBetween content (startLine - 1) endLine := by
  have parts : content = linesBetween content 0 (startLine - 1) ++
      (linesBetween content (startLine - 1) endLine ++
        linesBetween content endLine (max endLine (lines content).length)) := by
    have order := fresh.order
    rw [linesBetween_append content (by omega) (Nat.le_max_left _ _),
      linesBetween_append content (Nat.zero_le _) (by omega),
      linesBetween_all content (Nat.le_max_right _ _)]
  have within : linesBetween content (startLine - 1) endLine <:+: content := by
    conv => rhs; rw [parts]
    exact ⟨_, _, by rw [List.append_assoc]⟩
  rw [← lines_linesBetween]
  rcases uniform.cases with ⟨label, all⟩ | ⟨label, plain⟩ | ⟨-, plain, unmarked⟩
  · have allRange : AllCrlf (linesBetween content (startLine - 1) endLine) :=
      all.linesBetween (by have := fresh.order; omega)
    rw [ofCrlf all (lineEndingLabel_crlf.mp label).2, restoredEnding_crlf allRange,
      ← (uses_crlf allRange).eq_joinWith (.inr rfl)]
  · have plainRange : '\r' ∉ linesBetween content (startLine - 1) endLine :=
      fun mem => plain (within.subset mem)
    rw [ofLf plain (lineEndingLabel_lf.mp label).2, restoredEnding_lf plainRange,
      ← (uses_lf plainRange).eq_joinWith (.inl rfl)]
  · have plainRange : '\n' ∉ linesBetween content (startLine - 1) endLine :=
      fun mem => unmarked (within.subset mem)
    have none : restoredEnding (linesBetween content (startLine - 1) endLine) = [] :=
      if_neg fun suffix => plainRange (suffix.subset (List.mem_singleton_self _))
    rw [none, List.append_nil]
    by_cases empty : linesBetween content (startLine - 1) endLine = []
    · rw [empty]
      rfl
    · rw [lines_unmarked plainRange empty]
      simp [joinWith, List.intercalate]

theorem replacesLines_of_written {init : List Text} {last : Text} (written : last ≠ [])
    (plain : ∀ line ∈ init ++ [last], PlainLine line) :
    ReplacesLines ws index plan hasSnapshot path token content startLine endLine (init ++ [last])
      (joinWith ending (init ++ [last])) := by
  obtain ⟨other, isOther, ofCrlf, ofLf, normal⟩ :=
    normalizeForContent_joinWith uniform isEnding plain
  obtain ⟨replaced, replacedLines⟩ := lines_rangeReplaced fresh written isOther plain normal
  refine (replacesLines_iff fresh unplanned).mpr ⟨replacedLines, fun same => ?_⟩
  have order := fresh.order
  rw [replaced, same, range_restored fresh uniform ofCrlf ofLf,
    linesBetween_append content (Nat.zero_le _) (by omega),
    linesBetween_append content (Nat.zero_le _) (Nat.le_max_left _ _),
    linesBetween_all content (Nat.le_max_right _ _)]

end

/-- A range replacement by joined lines replaces the range by just these lines, unless the
last of them is blank. -/
theorem replaceRange_replacesLines_iff
    (fresh : FreshRange ws index path token content startLine endLine)
    (unplanned : plan.lookup path = none) (uniform : Uniform content) {parts : List Text}
    (nonempty : parts ≠ []) (written : parts ≠ [[]]) (plain : ∀ line ∈ parts, PlainLine line)
    {newText : Text}
    (form : newText = joinWith ['\n'] parts ∨ newText = joinWith ['\r', '\n'] parts) :
    ReplacesLines ws index plan hasSnapshot path token content startLine endLine parts newText ↔
      parts.getLast? ≠ some [] := by
  obtain ⟨ending, isEnding, rfl⟩ : ∃ ending, IsEnding ending ∧ newText = joinWith ending parts := by
    cases form with
    | inl lf => exact ⟨['\n'], .inl rfl, lf⟩
    | inr crlf => exact ⟨['\r', '\n'], .inr rfl, crlf⟩
  obtain ⟨init, last, rfl⟩ := parts.eq_nil_or_concat'.resolve_left nonempty
  rw [List.getLast?_concat]
  by_cases blank : last = []
  · subst blank
    have started : init ≠ [] := by
      rintro rfl
      exact written rfl
    exact iff_of_false (not_replacesLines fresh unplanned uniform isEnding started plain)
      (fun other => other rfl)
  · exact iff_of_true (replacesLines_of_written fresh unplanned uniform isEnding blank plain)
      (fun same => blank (Option.some.inj same))

theorem valid_of_decodeHandle {text : Text} {handle : RangeHandleWire}
    (decoded : ws.decodeHandle text = .ok handle) :
    handle.startLine ≤ handle.endLine ∧ handle.path ≠ [] ∧ (RelPath.new handle.path).isOk := by
  simp only [Workspace.decodeHandle] at decoded
  split at decoded
  · simp only [bind_eq_ok, require_eq_ok, decide_eq_true_eq, Bool.and_eq_true] at decoded
    obtain ⟨wire, -, -, order, -, placed, same⟩ := decoded
    cases same
    exact ⟨order, placed⟩
  · cases decoded

theorem decodeHandle_encodeHandle (encoder : HandleEncoder ws) {handle : RangeHandleWire}
    (order : handle.startLine ≤ handle.endLine) (named : handle.path ≠ [])
    (valid : (RelPath.new handle.path).isOk = true) :
    ws.decodeHandle (encodeHandle encoder handle) = .ok handle := by
  have marked : ("range:".toList).isPrefixOf (encodeHandle encoder handle) = true :=
    List.isPrefixOf_iff_prefix.mpr (List.prefix_append _ _)
  have payload : (encodeHandle encoder handle).drop "range:".toList.length = encoder.encode handle :=
    List.drop_left
  simp only [Workspace.decodeHandle, marked, if_true, payload, encoder.decode_encode, bind,
    Except.bind, require, order, named, valid, decide_true, ne_eq, not_false_eq_true, Bool.and_self]

namespace Sample

def pathN : RelPath := ⟨"n".toList, by decide, by decide, by decide⟩

def indexN (content : Text) : CodeIndex :=
  CodeIndex.empty.insert declaring ⟨"n".toList, content, content, [], 0, 0⟩

def rangeN (content : Text) (startLine endLine : Nat) : Text :=
  encodeHandle handles ⟨declaring.id, pathN.text, startLine, endLine, declaring.contentHash content⟩

theorem freshN {content : Text} {startLine endLine : Nat} (low : 1 ≤ startLine)
    (order : startLine ≤ endLine) (within : endLine ≤ max (lines content).length 1) :
    FreshRange declaring (indexN content) pathN (rangeN content startLine endLine) content
      startLine endLine where
  indexed := rfl
  decoded := decodeHandle_encodeHandle handles order (by simp [pathN])
    (by rw [RelPath.new_self]; rfl)
  low := low
  order := order
  within := within

theorem replacesLines_two :
    ReplacesLines declaring (indexN "a\r\n\r\nb".toList) ∅ false pathN
      (rangeN "a\r\n\r\nb".toList 1 2) "a\r\n\r\nb".toList 1 2 ["x".toList, [], "y".toList]
      "x\n\ny".toList :=
  (replaceRange_replacesLines_iff (freshN (by decide) (by decide) (by decide)) rfl (by decide)
    (by decide) (by decide) (by simp [PlainLine]) (.inl rfl)).mpr (by decide)

theorem not_replacesLines_blank :
    ¬ReplacesLines declaring (indexN "a\n\nb\n".toList) ∅ false pathN
      (rangeN "a\n\nb\n".toList 1 2) "a\n\nb\n".toList 1 2 ["a".toList, []] "a\n".toList :=
  @not_replacesLines _ _ _ _ _ _ _ 1 2 (freshN (by decide) (by decide) (by decide)) rfl (by decide)
    _ (.inl rfl) ["a".toList] (by decide) (by simp [PlainLine])

end Sample

end CodeWeave
