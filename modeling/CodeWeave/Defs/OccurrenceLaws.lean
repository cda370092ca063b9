import CodeWeave.Defs.SyntaxRanges
import Mathlib.Data.List.DropRight
import Mathlib.Data.List.ReduceOption

namespace CodeWeave

section

variable {content : Text}

theorem takeBytes_utf8Count_take (content : Text) (index : Nat) :
    takeBytes content (utf8Count (content.take index)) = content.take index := by
  have whole := takeBytes_append (content.take index) (content.drop index)
  rwa [List.take_append_drop] at whole

theorem isCharBoundary_take (content : Text) (index : Nat) :
    IsCharBoundary content (utf8Count (content.take index)) := by
  rw [IsCharBoundary, takeBytes_utf8Count_take]

theorem utf8Count_take_mono (content : Text) {first second : Nat} (before : first ≤ second) :
    utf8Count (content.take first) ≤ utf8Count (content.take second) := by
  have parts := List.take_append_drop first (content.take second)
  rw [List.take_take, Nat.min_eq_left before] at parts
  rw [← parts, utf8Count_append]
  exact Nat.le_add_right ..

theorem sliceBytes_take (content : Text) {first second : Nat} (before : first ≤ second) :
    sliceBytes content (utf8Count (content.take first)) (utf8Count (content.take second)) =
      some ((content.take second).drop first) := by
  have parts := List.take_append_drop first (content.take second)
  rw [List.take_take, Nat.min_eq_left before] at parts
  have dropped := dropBytes_append (content.take first) ((content.take second).drop first)
  rw [parts] at dropped
  rw [sliceBytes, if_pos ⟨utf8Count_take_mono content before, isCharBoundary_take content first,
    isCharBoundary_take content second⟩, takeBytes_utf8Count_take, dropped]

end

/-! Newlines. -/

theorem newlines_append (first second : Text) (offset : Nat) :
    matchIndicesFrom ['\n'] (first ++ second) offset 0 =
      matchIndicesFrom ['\n'] first offset 0 ++
        matchIndicesFrom ['\n'] second (offset + first.length) 0 := by
  induction first generalizing offset with
  | nil => simp [matchIndicesFrom]
  | cons c rest ih =>
    have next := ih (offset + 1)
    rw [Nat.add_assoc, Nat.add_comm 1] at next
    rw [List.cons_append, matchIndicesFrom, matchIndicesFrom, List.length_singleton,
      List.length_cons, Nat.sub_self, next]
    by_cases newline : c = '\n'
    · simp [newline]
    · simp [Ne.symm newline]

theorem length_newlines (text : Text) (offset : Nat) :
    (matchIndicesFrom ['\n'] text offset 0).length = text.count '\n' := by
  induction text generalizing offset with
  | nil => simp [matchIndicesFrom]
  | cons c rest ih =>
    rw [matchIndicesFrom, List.length_singleton, Nat.sub_self, List.count_cons]
    by_cases newline : c = '\n'
    · simp [newline, ih]
    · simp [newline, Ne.symm newline, ih]

def positionAfter (before : Text) : Nat × Nat :=
  (before.count '\n' + 1, (before.rtakeWhile (· ≠ '\n')).length + 1)

theorem length_sourceLineStarts (text : Text) :
    (sourceLineStarts text).length = text.count '\n' + 1 := by
  rw [sourceLineStarts, List.length_cons, List.length_map, matchIndices, length_newlines]

theorem getLast?_sourceLineStarts (text : Text) : (sourceLineStarts text).getLast? =
    some (text.length - (text.rtakeWhile (· ≠ '\n')).length) := by
  induction text using List.reverseRecOn with
  | nil => rfl
  | append_singleton text c ih =>
    have starts : sourceLineStarts (text ++ [c]) =
        sourceLineStarts text ++ if c = '\n' then [text.length + 1] else [] := by
      rw [sourceLineStarts, sourceLineStarts, matchIndices, newlines_append, List.map_append,
        List.cons_append, matchIndices]
      by_cases newline : c = '\n'
      · simp [newline, matchIndicesFrom]
      · simp [newline, Ne.symm newline, matchIndicesFrom]
    rw [starts, List.length_append, List.length_singleton]
    by_cases newline : c = '\n'
    · rw [if_pos newline, List.getLast?_concat, newline, List.rtakeWhile_concat_neg _ _ _ (by simp)]
      simp
    · rw [if_neg newline, List.append_nil, ih, List.rtakeWhile_concat_pos _ _ _ (by simp [newline]),
        List.length_append, List.length_singleton, Nat.add_sub_add_right]

theorem takeWhile_sourceLineStarts (before after : Text) :
    (sourceLineStarts (before ++ after)).takeWhile (· ≤ before.length) =
      sourceLineStarts before := by
  have early : ∀ start ∈ sourceLineStarts before, decide (start ≤ before.length) = true := by
    intro start mem
    rcases List.mem_cons.mp mem with rfl | later
    · exact decide_eq_true (Nat.zero_le _)
    · obtain ⟨newline, found, rfl⟩ := List.mem_map.mp later
      have bound := (mem_matchIndicesFrom found).2
      rw [List.length_singleton, Nat.zero_add] at bound
      exact decide_eq_true bound
  have split : sourceLineStarts (before ++ after) = sourceLineStarts before ++
      (matchIndicesFrom ['\n'] after before.length 0).map (· + 1) := by
    rw [sourceLineStarts, sourceLineStarts, matchIndices, newlines_append, List.map_append,
      List.cons_append, Nat.zero_add, matchIndices]
  rw [split, List.takeWhile_append_of_pos early]
  cases rest : matchIndicesFrom ['\n'] after before.length 0 with
  | nil => rw [List.map_nil, List.takeWhile_nil, List.append_nil]
  | cons newline more =>
    have bound := (mem_matchIndicesFrom (rest ▸ List.mem_cons_self)).1
    rw [List.map_cons, List.takeWhile_cons_of_neg (by simp; omega), List.append_nil]

theorem getElem?_sourceLineStarts (before after : Text) :
    (sourceLineStarts (before ++ after))[before.count '\n']? =
      some (before.length - (before.rtakeWhile (· ≠ '\n')).length) := by
  have above := List.takeWhile_prefix (l := sourceLineStarts (before ++ after))
    fun start => decide (start ≤ before.length)
  rw [takeWhile_sourceLineStarts] at above
  obtain ⟨more, whole⟩ := above
  have last := getLast?_sourceLineStarts before
  rw [List.getLast?_eq_getElem?, length_sourceLineStarts, Nat.add_sub_cancel] at last
  rw [← whole, List.getElem?_append_left (List.getElem?_eq_some_iff.mp last).1, last]

theorem sourcePosition_append (before after : Text) :
    sourcePosition (before ++ after) before.length = positionAfter before := by
  have short : (before.rtakeWhile (· ≠ '\n')).length ≤ before.length :=
    (List.rtakeWhile_suffix _ _).length_le
  rw [sourcePosition, takeWhile_sourceLineStarts, length_sourceLineStarts, Nat.add_sub_cancel,
    List.getD_eq_getElem?_getD, getElem?_sourceLineStarts, Option.getD_some, positionAfter,
    Nat.sub_sub_self short]

theorem takeWhile_congr {A : Type} {items : List A} {accepts admits : A → Bool}
    (same : ∀ item ∈ items, accepts item = admits item) :
    items.takeWhile accepts = items.takeWhile admits := by
  induction items with
  | nil => rfl
  | cons item rest ih =>
    rw [List.takeWhile_cons, List.takeWhile_cons, same item List.mem_cons_self,
      ih fun other mem => same other (List.mem_cons_of_mem _ mem)]

theorem mapM_reduceOption {A B : Type} {f : A → Option (Option B)} {kept : A → Option B}
    {items : List A} (each : ∀ item ∈ items, f item = some (kept item)) :
    (items.mapM f).map List.reduceOption = some (items.filterMap kept) := by
  induction items with
  | nil => rfl
  | cons item rest ih =>
    have later := ih fun other mem => each other (List.mem_cons_of_mem _ mem)
    rw [List.mapM_cons, each item List.mem_cons_self]
    cases mapped : rest.mapM f with
    | none => rw [mapped] at later; cases later
    | some values =>
      rw [mapped, Option.map_some, Option.some.injEq] at later
      cases found : kept item with
      | none =>
        rw [List.filterMap_cons_none found, ← later, ← List.reduceOption_cons_of_none]
        rfl
      | some value =>
        rw [List.filterMap_cons_some found, ← later, ← List.reduceOption_cons_of_some]
        rfl

namespace ByBytes

variable {content : Text}

theorem sourceLineStarts_eq (content : Text) : sourceLineStarts content =
    (CodeWeave.sourceLineStarts content).map fun start => utf8Count (content.take start) := by
  rw [sourceLineStarts, CodeWeave.sourceLineStarts, matchOffsets, List.map_map, List.map_cons,
    List.map_map, List.take_zero]
  congr 1
  refine List.map_congr_left fun newline mem => ?_
  obtain ⟨rest, here⟩ := prefix_of_mem_matchIndicesFrom mem
  rw [Nat.sub_zero] at here
  have next : content.take (newline + 1) = content.take newline ++ ['\n'] := by
    rw [List.take_add, ← here]
    rfl
  rw [Function.comp_apply, Function.comp_apply, next, utf8Count_append]
  rfl

theorem le_length_of_mem_sourceLineStarts {start : Nat}
    (mem : start ∈ CodeWeave.sourceLineStarts content) : start ≤ content.length := by
  rcases List.mem_cons.mp mem with rfl | later
  · exact Nat.zero_le _
  · obtain ⟨newline, found, rfl⟩ := List.mem_map.mp later
    have bound := (mem_matchIndicesFrom found).2
    rwa [List.length_singleton, Nat.zero_add] at bound

theorem utf8Count_take_le_iff {first second : Nat} (within : first ≤ content.length) :
    utf8Count (content.take first) ≤ utf8Count (content.take second) ↔ first ≤ second := by
  constructor
  · intro le
    by_contra beyond
    exact Nat.not_lt_of_le le (utf8Count_take_lt (Nat.lt_of_not_le beyond) within)
  · exact utf8Count_take_mono content

theorem sourcePosition_take {index : Nat} (within : index ≤ content.length) :
    sourcePosition content (sourceLineStarts content) (utf8Count (content.take index)) =
      some (CodeWeave.sourcePosition content index) := by
  have before : (content.take index).length = index := List.length_take_of_le within
  have started : (CodeWeave.sourceLineStarts content).takeWhile (· ≤ index) =
      CodeWeave.sourceLineStarts (content.take index) := by
    have up_to := takeWhile_sourceLineStarts (content.take index) (content.drop index)
    rwa [List.take_append_drop, before] at up_to
  have lines : ((sourceLineStarts content).takeWhile
      (· ≤ utf8Count (content.take index))).length - 1 = (content.take index).count '\n' := by
    rw [sourceLineStarts_eq, List.takeWhile_map, List.length_map, takeWhile_congr, started,
      length_sourceLineStarts, Nat.add_sub_cancel]
    intro start mem
    exact decide_eq_decide.mpr (utf8Count_take_le_iff (le_length_of_mem_sourceLineStarts mem))
  have start := getElem?_sourceLineStarts (content.take index) (content.drop index)
  rw [List.take_append_drop, before] at start
  have position := sourcePosition_append (content.take index) (content.drop index)
  rw [List.take_append_drop, before, positionAfter] at position
  have short : ((content.take index).rtakeWhile (· ≠ '\n')).length ≤ index := by
    have shorter := (List.rtakeWhile_suffix (· ≠ '\n') (content.take index)).length_le
    rwa [before] at shorter
  rw [sourcePosition, lines, sourceLineStarts_eq, List.getElem?_map, start, position]
  simp only [Option.map_some, Option.bind_eq_bind, Option.bind_some,
    sliceBytes_take content (Nat.sub_le index _), List.length_drop, before]
  rw [Nat.sub_sub_self short]

theorem occurrenceAt_take (chars : CharClasses) (identifier : Text) {index : Nat}
    (mem : index ∈ matchIndices content identifier) :
    occurrenceAt chars content identifier (utf8Count (content.take index)) = some
      (if (content.take index).getLast?.any (isIdentifierContinue chars) ||
          (content.drop (index + identifier.length)).head?.any (isIdentifierContinue chars)
        then none
        else some (lexicalOccurrence content identifier index)) := by
  have bound := (mem_matchIndicesFrom mem).2
  rw [Nat.zero_add] at bound
  obtain ⟨rest, here⟩ := prefix_of_mem_matchIndicesFrom mem
  rw [Nat.sub_zero] at here
  have next : content.take (index + identifier.length) = content.take index ++ identifier := by
    rw [List.take_add, ← here, List.take_left]
  have finish : utf8Count (content.take index) + utf8Count identifier =
      utf8Count (content.take (index + identifier.length)) := by
    rw [next, utf8Count_append]
  have above : sliceBytes content 0 (utf8Count (content.take index)) =
      some (content.take index) := sliceBytes_take content (Nat.zero_le index)
  have below : sliceBytes content (utf8Count (content.take (index + identifier.length)))
      (utf8Count content) = some (content.drop (index + identifier.length)) := by
    have whole := sliceBytes_take content bound
    rwa [List.take_length] at whole
  rw [occurrenceAt]
  simp only [finish, above, below, Option.bind_eq_bind, Option.bind_some,
    sourcePosition_take bound, sourcePosition_take (Nat.le_trans (Nat.le_add_right ..) bound)]
  split
  · rfl
  · rw [lexicalOccurrence, finish]

theorem lexicalIdentifierOccurrences_eq (chars : CharClasses) (content identifier : Text) :
    lexicalIdentifierOccurrences chars content identifier =
      some (CodeWeave.lexicalIdentifierOccurrences chars content identifier) := by
  rw [lexicalIdentifierOccurrences, matchOffsets, List.mapM_map]
  exact mapM_reduceOption fun index mem => occurrenceAt_take chars identifier mem

/-! What is parsed. -/

theorem getElem?_sourceLineStarts_of_lt {index : Nat}
    (within : index < (sourceLineStarts content).length) :
    ∃ start, start ≤ content.length ∧
      (CodeWeave.sourceLineStarts content)[index]? = some start ∧
      (sourceLineStarts content)[index]? = some (utf8Count (content.take start)) := by
  rw [sourceLineStarts_eq, List.length_map] at within
  have found := List.getElem?_eq_getElem within
  refine ⟨_, le_length_of_mem_sourceLineStarts (List.getElem_mem within), found, ?_⟩
  rw [sourceLineStarts_eq, List.getElem?_map, found]
  rfl

theorem increasing_sourceLineStarts (content : Text) :
    (CodeWeave.sourceLineStarts content).Pairwise (· < ·) := by
  rw [CodeWeave.sourceLineStarts, List.pairwise_cons, List.pairwise_map]
  constructor
  · intro start mem
    obtain ⟨newline, -, rfl⟩ := List.mem_map.mp mem
    exact Nat.succ_pos newline
  · exact (increasing_matchIndicesFrom content 0 0).imp fun apart => Nat.succ_lt_succ apart.1

theorem sourceLineRangeBytes_slice {startLine endLine : Nat} (ordered : startLine ≤ endLine)
    (positive : 0 < endLine) : ∃ range source,
      sourceLineRangeBytes content (sourceLineStarts content) startLine endLine = some range ∧
        sliceBytes content range.1 range.2 = some source := by
  have some_lines : 0 < (sourceLineStarts content).length := Nat.succ_pos _
  obtain ⟨start, bound, starts, startByte⟩ := @getElem?_sourceLineStarts_of_lt content
    (min (startLine - 1) ((sourceLineStarts content).length - 1)) (by omega)
  rw [sourceLineRangeBytes, startByte, Option.bind_eq_bind, Option.bind_some]
  by_cases within :
      min endLine (sourceLineStarts content).length < (sourceLineStarts content).length
  · obtain ⟨stop, -, stops, endByte⟩ := getElem?_sourceLineStarts_of_lt within
    obtain ⟨startWithin, rfl⟩ := List.getElem?_eq_some_iff.mp starts
    obtain ⟨stopWithin, rfl⟩ := List.getElem?_eq_some_iff.mp stops
    have before := List.pairwise_iff_getElem.mp (increasing_sourceLineStarts content) _ _
      startWithin stopWithin (by omega)
    rw [endByte, Option.getD_some]
    exact ⟨_, _, rfl, sliceBytes_take content (Nat.le_of_lt before)⟩
  · rw [List.getElem?_eq_none (Nat.le_of_not_lt within), Option.getD_none]
    have slice := sliceBytes_take content bound
    rw [List.take_length] at slice
    exact ⟨_, _, rfl, slice⟩

theorem parseRange_total (trees : SyntaxTrees) (path identifier : Text) (syntaxMap : SyntaxMap)
    {range : (Nat × Nat) × Option Text} (ordered : range.1.1 ≤ range.1.2)
    (positive : 0 < range.1.2) :
    ∃ more, parseRange trees path content identifier syntaxMap range = some more := by
  obtain ⟨bytes, source, found, slice⟩ := @sourceLineRangeBytes_slice content _ _ ordered positive
  unfold parseRange
  simp only [found, slice, Option.bind_eq_bind, Option.bind_some]
  split
  · exact ⟨_, rfl⟩
  · exact ⟨_, rfl⟩

theorem parseRanges_total (trees : SyntaxTrees) (path identifier : Text) {ranges : SyntaxRanges}
    (ordered : ∀ range ∈ ranges, range.1.1 ≤ range.1.2 ∧ 0 < range.1.2) (syntaxMap : SyntaxMap) :
    ∃ more, ranges.foldlM (parseRange trees path content identifier) syntaxMap = some more := by
  induction ranges generalizing syntaxMap with
  | nil => exact ⟨syntaxMap, rfl⟩
  | cons range rest ih =>
    obtain ⟨here, positive⟩ := ordered range List.mem_cons_self
    obtain ⟨more, parsed⟩ :=
      @parseRange_total content trees path identifier syntaxMap _ here positive
    rw [List.foldlM_cons, parsed, Option.bind_eq_bind, Option.bind_some]
    exact ih (fun other mem => ordered other (List.mem_cons_of_mem _ mem)) more

end ByBytes

theorem mem_minByKey {A K : Type} [Ord K] {key : A → K} {items : List A} {least : A}
    (found : minByKey key items = some least) : least ∈ items := by
  induction items with
  | nil => cases found
  | cons item rest ih =>
    rw [minByKey] at found
    split at found
    · cases found
      exact List.mem_cons_self
    · next other later =>
      split at found
      · cases found
        exact List.mem_cons_of_mem _ (ih later)
      · cases found
        exact List.mem_cons_self

structure EnclosedOccurrence.Within (totalLines : Nat) (occurrence : EnclosedOccurrence) :
    Prop where
  positive : 0 < occurrence.startLine
  ordered : occurrence.startLine ≤ occurrence.endLine
  inContent : occurrence.startLine ≤ totalLines

theorem syntaxRange_ordered (symbols : List Symbol) {totalLines : Nat}
    {occurrence : EnclosedOccurrence} (within : occurrence.Within totalLines) :
    (syntaxRange symbols totalLines occurrence).1 ≤ (syntaxRange symbols totalLines occurrence).2 ∧
      0 < (syntaxRange symbols totalLines occurrence).2 := by
  obtain ⟨positive, ordered, inContent⟩ := within
  rw [syntaxRange]
  split
  · simp only
    omega
  · cases found : indexedEnclosing symbols occurrence with
    | none => exact ⟨ordered, Nat.lt_of_lt_of_le positive ordered⟩
    | some symbol =>
      have encloses := of_decide_eq_true (List.mem_filter.mp (mem_minByKey found)).2
      simp only [Option.map_some, Option.getD_some]
      omega

theorem SyntaxRanges.mem_add {ranges : SyntaxRanges} {lines : Nat × Nat} {enclosing : Option Text}
    {range : (Nat × Nat) × Option Text} (mem : range ∈ ranges.add lines enclosing) :
    range ∈ ranges ∨ range = (lines, enclosing) := by
  rw [add] at mem
  split at mem
  · exact .inl mem
  · rcases List.mem_append.mp mem with earlier | last
    · exact .inl earlier
    · exact .inr (List.mem_singleton.mp last)

theorem syntaxRanges_ordered (symbols : List Symbol) (identifier : Text) {totalLines : Nat}
    {occurrences : List EnclosedOccurrence} (some_lines : 0 < totalLines)
    (within : ∀ occurrence ∈ occurrences, occurrence.Within totalLines) :
    ∀ range ∈ ByBytes.syntaxRanges symbols identifier totalLines occurrences,
      range.1.1 ≤ range.1.2 ∧ 0 < range.1.2 := by
  intro range mem
  rw [ByBytes.syntaxRanges] at mem
  split at mem
  · rw [List.mem_singleton.mp mem]
    exact ⟨some_lines, some_lines⟩
  · have added := List.mem_mergeSort.mp mem
    clear mem
    induction occurrences using List.reverseRecOn with
    | nil => cases added
    | append_singleton occurrences last ih =>
      rw [List.foldl_append] at added
      rcases SyntaxRanges.mem_add added with earlier | same
      · exact ih (fun other mem => within other (List.mem_append_left _ mem)) earlier
      · rw [same]
        exact syntaxRange_ordered symbols (within last (List.mem_append_right _ List.mem_cons_self))

structure Span where
  startByte : Nat
  endByte : Nat
  startLine : Nat
  startColumn : Nat
  endLine : Nat
  endColumn : Nat
  deriving DecidableEq

def EnclosedOccurrence.span (occurrence : EnclosedOccurrence) : Span :=
  ⟨occurrence.startByte, occurrence.endByte, occurrence.startLine, occurrence.startColumn,
    occurrence.endLine, occurrence.endColumn⟩

def Span.ofName (before name : Text) : Span :=
  ⟨utf8Count before, utf8Count before + utf8Count name, (positionAfter before).1,
    (positionAfter before).2, (positionAfter (before ++ name)).1,
    (positionAfter (before ++ name)).2⟩

section

variable {chars : CharClasses} {content name before after : Text}

theorem span_lexicalOccurrence (split : content = before ++ name ++ after) :
    (lexicalOccurrence content name before.length).span = Span.ofName before name := by
  have start := sourcePosition_append before (name ++ after)
  have finish := sourcePosition_append (before ++ name) after
  rw [← List.append_assoc, ← split] at start
  rw [← split, List.length_append] at finish
  have front : content.take before.length = before := by
    rw [split, List.append_assoc, List.take_left]
  rw [EnclosedOccurrence.span, lexicalOccurrence, start, finish, front]
  rfl

theorem mem_map_span (identifier : IsIdentifier chars name) {span : Span} :
    span ∈ (lexicalIdentifierOccurrences chars content name).map EnclosedOccurrence.span ↔
      ∃ before after, WordAt chars content before name after ∧ span = Span.ofName before name := by
  rw [List.mem_map]
  constructor
  · rintro ⟨occurrence, mem, rfl⟩
    obtain ⟨before, after, word, rfl⟩ := (mem_lexicalIdentifierOccurrences identifier).mp mem
    exact ⟨before, after, word, span_lexicalOccurrence word.content⟩
  · rintro ⟨before, after, word, rfl⟩
    exact ⟨_, (mem_lexicalIdentifierOccurrences identifier).mpr ⟨before, after, word, rfl⟩,
      span_lexicalOccurrence word.content⟩

theorem within_of_mem (identifier : IsIdentifier chars name) {occurrence : EnclosedOccurrence}
    (mem : occurrence ∈ lexicalIdentifierOccurrences chars content name) :
    occurrence.Within (ByBytes.sourceLineStarts content).length := by
  obtain ⟨before, after, word, rfl⟩ := (mem_lexicalIdentifierOccurrences identifier).mp mem
  have span := span_lexicalOccurrence word.content
  have start : (lexicalOccurrence content name before.length).startLine = before.count '\n' + 1 :=
    congrArg Span.startLine span
  have finish : (lexicalOccurrence content name before.length).endLine =
      (before ++ name).count '\n' + 1 := congrArg Span.endLine span
  rw [List.count_append] at finish
  have lines : (ByBytes.sourceLineStarts content).length = content.count '\n' + 1 := by
    rw [ByBytes.sourceLineStarts_eq, List.length_map, length_sourceLineStarts]
  rw [word.content, List.count_append, List.count_append] at lines
  constructor
  · omega
  · omega
  · rw [start, word.content, lines]
    omega

theorem classified_inContext (syntaxMap : SyntaxMap) (enclosing : Option Text)
    (occurrence : EnclosedOccurrence) : ∃ classification,
      EnclosedOccurrence.inContext syntaxMap { occurrence with enclosingSymbol := enclosing } =
        occurrence.classified classification := by
  rw [EnclosedOccurrence.inContext]
  split
  · exact ⟨⟨occurrence.role, occurrence.evidence, enclosing⟩, rfl⟩
  · next context _ => exact ⟨⟨context.role, .syntactic, context.enclosingSymbol.or enclosing⟩, rfl⟩

theorem identifierOccurrencesWithSymbols_eq (identifier : IsIdentifier chars name)
    (trees : SyntaxTrees) (path content : Text) (symbols : List Symbol) :
    ∃ enrich : EnclosedOccurrence → EnclosedOccurrence,
      (∀ occurrence, ∃ classification, enrich occurrence = occurrence.classified classification) ∧
      ByBytes.identifierOccurrencesWithSymbols chars trees path content name symbols =
        some ((lexicalIdentifierOccurrences chars content name).map enrich) := by
  unfold ByBytes.identifierOccurrencesWithSymbols
  simp only [identifier.trim, if_neg identifier.1, ByBytes.lexicalIdentifierOccurrences_eq,
    Option.bind_eq_bind, Option.bind_some]
  by_cases none_found : lexicalIdentifierOccurrences chars content name = []
  · rw [if_pos none_found, none_found]
    refine ⟨id, fun occurrence => ?_, rfl⟩
    exact ⟨⟨occurrence.role, occurrence.evidence, occurrence.enclosingSymbol⟩, rfl⟩
  · have lines : max (ByBytes.sourceLineStarts content).length 1 =
        (ByBytes.sourceLineStarts content).length := Nat.max_eq_left (Nat.succ_pos _)
    have some_lines : 0 < (ByBytes.sourceLineStarts content).length := Nat.succ_pos _
    have ranges := syntaxRanges_ordered symbols name some_lines
      fun _ mem => @within_of_mem chars content name identifier _ mem
    obtain ⟨syntaxMap, parsed⟩ := @ByBytes.parseRanges_total content trees path name _ ranges
      fun _ => none
    rw [if_neg none_found, lines, parsed, Option.bind_some]
    by_cases outlined : symbols = []
    · refine ⟨.inContext syntaxMap, fun occurrence => ?_, by rw [if_pos outlined]⟩
      exact classified_inContext syntaxMap occurrence.enclosingSymbol occurrence
    · refine ⟨fun occurrence => .inContext syntaxMap
        { occurrence with enclosingSymbol := fallbackEnclosing symbols name occurrence },
        fun occurrence => classified_inContext syntaxMap _ occurrence, ?_⟩
      rw [if_neg outlined, List.map_map]
      rfl

theorem find?_startByte (identifier : IsIdentifier chars name) {occurrence : EnclosedOccurrence}
    (mem : occurrence ∈ lexicalIdentifierOccurrences chars content name) :
    (lexicalIdentifierOccurrences chars content name).find?
      (fun other => other.startByte = occurrence.startByte) = some occurrence := by
  cases found : (lexicalIdentifierOccurrences chars content name).find?
      fun other => other.startByte = occurrence.startByte with
  | none => exact absurd (decide_eq_true rfl) (List.find?_eq_none.mp found occurrence mem)
  | some other =>
    have starts := List.find?_some found
    have same := of_decide_eq_true starts
    have distinct : ((lexicalIdentifierOccurrences chars content name).map
        fun occurrence => occurrence.startByte).Nodup :=
      List.pairwise_map.mpr ((increasing_lexicalIdentifierOccurrences identifier content).imp
        fun before => Nat.ne_of_lt before)
    rw [List.inj_on_of_nodup_map distinct (List.mem_of_find?_eq_some found) mem same]

theorem exists_classifier (identifier : IsIdentifier chars name) (trees : SyntaxTrees)
    (path content : Text) (symbols : List Symbol) : ∃ classify : Classifier,
      ByBytes.identifierOccurrencesWithSymbols chars trees path content name symbols =
        some (identifierOccurrencesWithSymbols chars classify path content name symbols) := by
  obtain ⟨enrich, classifies, enriched⟩ :=
    identifierOccurrencesWithSymbols_eq identifier trees path content symbols
  choose classification enrich_eq using classifies
  let found := lexicalIdentifierOccurrences chars content name
  let classify : Classifier := fun _ _ _ _ start _ =>
    ((found.find? fun occurrence => occurrence.startByte = start).map classification).getD
      ⟨.other, .lexical, none⟩
  refine ⟨classify, ?_⟩
  rw [enriched, identifier.occurrences_eq]
  refine congrArg some (List.map_congr_left fun occurrence mem => ?_)
  have itself : found.find? (fun other => other.startByte = occurrence.startByte) =
      some occurrence := find?_startByte identifier mem
  rw [enrich_eq]
  simp only [classify, itself, Option.map_some, Option.getD_some]

end

/-- The scan of a content for an identifier finds the places where it stands as a word and no
others, in the order of their bytes and each once, with the lines and columns that the newlines
before them give; and whatever the symbols of the file and the trees of its lines are, what they
say leaves these places as they are. -/
theorem occurrences_exact (chars : CharClasses) (content name : Text)
    (identifier : IsIdentifier chars name) :
    ∃ found, ByBytes.lexicalIdentifierOccurrences chars content name = some found ∧
      found.Pairwise (fun first second => first.startByte < second.startByte) ∧
      (∀ span, span ∈ found.map EnclosedOccurrence.span ↔
        ∃ before after, WordAt chars content before name after ∧ span = Span.ofName before name) ∧
      ∀ (trees : SyntaxTrees) (path : Text) (symbols : List Symbol), ∃ enriched,
        ByBytes.identifierOccurrencesWithSymbols chars trees path content name symbols =
          some enriched ∧
        enriched.map EnclosedOccurrence.span = found.map EnclosedOccurrence.span := by
  refine ⟨_, ByBytes.lexicalIdentifierOccurrences_eq chars content name,
    increasing_lexicalIdentifierOccurrences identifier content,
    fun span => mem_map_span identifier, fun trees path symbols => ?_⟩
  obtain ⟨enrich, classifies, enriched⟩ :=
    identifierOccurrencesWithSymbols_eq identifier trees path content symbols
  refine ⟨_, enriched, ?_⟩
  rw [List.map_map]
  refine List.map_congr_left fun occurrence _ => ?_
  obtain ⟨classification, same⟩ := classifies occurrence
  rw [Function.comp_apply, same]
  rfl

namespace Sample

def onlyF : CharClasses where
  isAlphanumeric c := decide (c = 'f')
  not_whitespace c alphanumeric := by
    rw [of_decide_eq_true alphanumeric]
    rfl

end Sample

open Sample in
theorem occurrences_exact_f : ∃ found,
    ByBytes.lexicalIdentifierOccurrences onlyF "f\nff f".toList ['f'] = some found ∧
    ∀ (trees : SyntaxTrees) (path : Text) (symbols : List Symbol), ∃ enriched,
      ByBytes.identifierOccurrencesWithSymbols onlyF trees path "f\nff f".toList ['f'] symbols =
        some enriched ∧
      enriched.map EnclosedOccurrence.span = [⟨0, 1, 1, 1, 1, 2⟩, ⟨5, 6, 2, 4, 2, 5⟩] := by
  have identifier : IsIdentifier onlyF ['f'] :=
    ⟨List.cons_ne_nil _ _, List.all_eq_true.mp rfl⟩
  obtain ⟨found, scanned, -, -, kept⟩ := occurrences_exact onlyF "f\nff f".toList ['f'] identifier
  have spans : (ByBytes.lexicalIdentifierOccurrences onlyF "f\nff f".toList ['f']).map
      (List.map EnclosedOccurrence.span) = some [⟨0, 1, 1, 1, 1, 2⟩, ⟨5, 6, 2, 4, 2, 5⟩] := by
    decide +kernel
  rw [scanned, Option.map_some, Option.some.injEq] at spans
  rw [spans] at kept
  exact ⟨found, scanned, kept⟩

end CodeWeave
