import CodeWeave.Defs.Workspace.RangeReplacement
import CodeWeave.Defs.Workspace.Sequential

/-! Inserting lines at a symbol.  The text goes in where a line starts, or at the end of a
content that has no such line, whether this is a place of its own or not. -/

namespace CodeWeave

open Pieces

/-- After how many lines of a content a text at a symbol may come. -/
def InsertPosition.Place (symbol : Symbol) (count : Nat) : InsertPosition → Prop
  | .before => count + 1 = symbol.startLine
  | .after => count = symbol.endLine
  | .insideStart | .insideEnd => symbol.startLine ≤ count ∧ count < symbol.endLine

def InsertPosition.Fits (content : Text) (symbol : Symbol) : InsertPosition → Prop
  | .before => True
  | .after => symbol.endLine < (lines content).length ∨ ['\n'] <:+ content
  | .insideStart | .insideEnd => symbol.startLine < symbol.endLine

/-- Planning an insert adds the lines in one place of the symbol and keeps the others as they
were, or is refused for a symbol that has no place. -/
def InsertsLines (ws : Workspace) (change : Change) (hasSnapshot : Bool) (plan : EditPlan)
    (index : CodeIndex) (path : RelPath) (content inserted : Text) (position : InsertPosition)
    (symbol : Symbol) : Prop :=
  (∃ plan' above below count, ws.planChange change hasSnapshot plan index = .ok plan' ∧
    plannedContent plan' index path = some (above ++ inserted ++ below) ∧
    content = above ++ below ∧ position.Place symbol count ∧
    lines (above ++ inserted ++ below) =
      (lines content).take count ++ lines inserted ++ (lines content).drop count) ∨
  (¬∃ count, position.Place symbol count) ∧
    ∃ error, ws.planChange change hasSnapshot plan index = .error error

section

variable {content inserted : Text}

theorem lines_inserted {count : Nat} (endedAbove : Ended '\n' (linesBetween content 0 count))
    (ended : Ended '\n' inserted) :
    lines (linesBetween content 0 count ++ inserted ++
        linesBetween content count (max count (lines content).length)) =
      (lines content).take count ++ lines inserted ++ (lines content).drop count := by
  rw [List.append_assoc, lines_append endedAbove, lines_append ended, lines_below,
    lines_linesBetween, List.drop_zero, List.append_assoc]

theorem length_lines_append (unended : ¬Ended '\n' content) (newline : '\n' ∈ inserted) :
    (lines (content ++ inserted)).length + 1 = (lines content).length + (lines inserted).length := by
  induction content using text_induction with
  | nil => exact absurd ended_nil unended
  | last body unmarked nonempty =>
    obtain ⟨front, rest, shape, plain⟩ := List.eq_append_cons_of_mem newline
    have joined : '\n' ∉ body ++ front := by
      rw [List.mem_append, not_or]
      exact ⟨unmarked, plain⟩
    rw [shape, ← List.append_assoc, lines_body_append joined, lines_body_append plain,
      lines_unmarked unmarked nonempty, List.length_singleton, List.length_cons, List.length_cons]
    omega
  | piece body rest unmarked ih =>
    have later : ¬Ended '\n' rest := by
      intro ended
      have whole := (ended_concat body).append ended
      rw [List.append_assoc, List.singleton_append] at whole
      exact unended whole
    rw [List.append_assoc, List.cons_append, lines_body_append unmarked, lines_body_append unmarked,
      List.length_cons, List.length_cons]
    have shorter := ih later
    omega

theorem getLast?_crlfToLf (text : Text) : (crlfToLf text).getLast? = text.getLast? := by
  induction text using crlfToLf.induct with
  | case1 rest ih => simp [crlfToLf, List.getLast?_cons, ih]
  | case2 c rest other ih => rw [crlfToLf_cons other, List.getLast?_cons, List.getLast?_cons, ih]
  | case3 => rfl

theorem ended_normalized (content : Text) {text : Text} (ended : ['\n'] <:+ text) :
    ['\n'] <:+ normalizeLineEndingsForContent content text := by
  have normalized (front : Text) :
      ['\n'] <:+ normalizeLineEndings text (front ++ ['\n']) := by
    rw [newline_suffix_iff, ← getLast?_crlfToLf] at ended
    obtain ⟨init, shape⟩ := List.getLast?_eq_some_iff.mp ended
    rw [normalizeLineEndings, shape, List.map_append, List.flatMap_append]
    refine List.IsSuffix.trans ?_ (List.suffix_append _ _)
    simp
  rw [normalizeLineEndingsForContent]
  split
  · exact normalized ['\r']
  · exact normalized []
  · exact ended

theorem place_insertLine {position : InsertPosition} {symbol : Symbol} (low : 1 ≤ symbol.startLine)
    (order : symbol.startLine ≤ symbol.endLine)
    (within : symbol.endLine ≤ (lines content).length) (fits : position.Fits content symbol) :
    position.Place symbol (insertLine position symbol - 1) ∧
      Ended '\n' (linesBetween content 0 (insertLine position symbol - 1)) := by
  cases position with
  | before =>
    refine ⟨Nat.sub_add_cancel low, ended_linesBetween content ?_⟩
    rw [insertLine]
    omega
  | after =>
    refine ⟨rfl, ?_⟩
    rw [insertLine, Nat.add_sub_cancel]
    cases fits with
    | inl more => exact ended_linesBetween content more
    | inr ended =>
      by_cases more : symbol.endLine < (lines content).length
      · exact ended_linesBetween content more
      · rw [linesBetween_all content (Nat.le_of_not_lt more)]
        exact ended_iff.mpr (.inr ended)
  | insideStart =>
    refine ⟨⟨Nat.le_refl _, fits⟩, ended_linesBetween content ?_⟩
    exact Nat.lt_of_lt_of_le fits within
  | insideEnd =>
    have between : symbol.startLine < symbol.endLine := fits
    refine ⟨⟨?_, ?_⟩, ended_linesBetween content ?_⟩ <;> rw [insertLine] <;> omega

theorem fits_of_place {position : InsertPosition} {symbol : Symbol} {count : Nat}
    (place : position.Place symbol count) (inside : position ≠ .after) :
    position.Fits content symbol := by
  cases position with
  | before => trivial
  | after => exact absurd rfl inside
  | insideStart => exact Nat.lt_of_le_of_lt place.1 place.2
  | insideEnd => exact Nat.lt_of_le_of_lt place.1 place.2

end

section

variable {ws : Workspace} {index : CodeIndex} {plan : EditPlan} {hasSnapshot : Bool}
  {path : RelPath} {handle : Option RangeHandleWire} {content source text anchorSymbol : Text}
  {position : InsertPosition} {hash : Option ContentHash} {symbol : Symbol}

theorem planChange_insert
    (met : ws.Precondition (.insert source text anchorSymbol position hash) hasSnapshot path handle
      plan index)
    (current : plannedContent plan index path = some content)
    (found : (ws.extractSymbols path.text content).find? (fun item => item.name = anchorSymbol) =
      some symbol) :
    ∃ plan', ws.planChange (.insert source text anchorSymbol position hash) hasSnapshot plan index =
        .ok plan' ∧
      plannedContent plan' index path = some
        (linesBetween content 0 (insertLine position symbol - 1) ++
          normalizeLineEndingsForContent content text ++
          linesBetween content (insertLine position symbol - 1)
            (max (insertLine position symbol - 1) (lines content).length)) := by
  obtain ⟨above, below⟩ := lineOffset_parts content (insertLine position symbol)
  have applied := ws.planChange_of_precondition met current
  simp only [Workspace.applyChange, okOr, found, bind, Except.bind, replaceRange, above, below]
    at applied
  refine ⟨_, applied, ?_⟩
  rw [plannedContent_putPlan, Files.set, if_pos rfl]

section

variable
  (met : ws.Precondition (.insert source text anchorSymbol position hash) hasSnapshot path handle
    plan index)
  (current : plannedContent plan index path = some content)
  (found : (ws.extractSymbols path.text content).find? (fun item => item.name = anchorSymbol) =
    some symbol)
  (low : 1 ≤ symbol.startLine) (order : symbol.startLine ≤ symbol.endLine)
  (within : symbol.endLine ≤ (lines content).length) (ended : ['\n'] <:+ text)

include met current found low order within ended

theorem insertsLines_of_fits (fits : position.Fits content symbol) :
    InsertsLines ws (.insert source text anchorSymbol position hash) hasSnapshot plan index path
      content (normalizeLineEndingsForContent content text) position symbol := by
  obtain ⟨plan', planned, after⟩ := planChange_insert met current found
  obtain ⟨place, endedAbove⟩ := place_insertLine low order within fits
  refine .inl ⟨plan', _, _, _, planned, after, ?_, place, ?_⟩
  · rw [linesBetween_append content (Nat.zero_le _) (Nat.le_max_left _ _),
      linesBetween_all content (Nat.le_max_right _ _)]
  · exact lines_inserted endedAbove (ended_iff.mpr (.inr (ended_normalized content ended)))

theorem fits_of_insertsLines
    (inserts : InsertsLines ws (.insert source text anchorSymbol position hash) hasSnapshot plan
      index path content (normalizeLineEndingsForContent content text) position symbol) :
    position.Fits content symbol := by
  obtain ⟨plan', planned, after⟩ := planChange_insert met current found
  obtain ⟨other, above, below, count, planned', after', -, place, inserted⟩ |
    ⟨-, error, refused⟩ := inserts
  · by_cases inside : position = .after
    · subst inside
      by_contra unfit
      rw [InsertPosition.Fits, not_or, Nat.not_lt] at unfit
      obtain rfl : count = symbol.endLine := place
      obtain rfl := Except.ok.inj (planned.symm.trans planned')
      rw [after', Option.some.injEq] at after
      rw [after, insertLine, Nat.add_sub_cancel, Nat.max_eq_left unfit.1, linesBetween_self,
        linesBetween_all content unfit.1, List.append_nil, List.take_of_length_le unfit.1,
        List.drop_eq_nil_of_le unfit.1, List.append_nil] at inserted
      have unended : ¬Ended '\n' content := by
        rw [ended_iff, not_or]
        refine ⟨fun empty => ?_, unfit.2⟩
        rw [empty, lines_nil, List.length_nil] at within
        omega
      have newline := (ended_normalized content ended).subset (List.mem_singleton_self _)
      have sizes := length_lines_append unended newline
      rw [inserted, List.length_append] at sizes
      omega
    · exact fits_of_place place inside
  · rw [planned] at refused
    cases refused

/-- An insert adds lines and touches none exactly when it has a place of its own to go. -/
theorem insert_insertsLines_iff :
    InsertsLines ws (.insert source text anchorSymbol position hash) hasSnapshot plan index path
      content (normalizeLineEndingsForContent content text) position symbol ↔
    position.Fits content symbol :=
  ⟨fits_of_insertsLines met current found low order within ended,
    insertsLines_of_fits met current found low order within ended⟩

end

end

namespace Sample

def pathRs : RelPath := ⟨"n.rs".toList, by decide, by decide, by decide⟩

def indexRs (content : Text) : CodeIndex :=
  CodeIndex.empty.insert declaring ⟨pathRs.text, content, content,
    [⟨"f".toList, "function".toList, 1, 1, "f".toList⟩], utf8Count content, 0⟩

def insertRs (content text : Text) (position : InsertPosition) : Change :=
  .insert pathRs.text text "f".toList position (some (declaring.contentHash content))

theorem met_insertRs (content text : Text) (position : InsertPosition) :
    declaring.Precondition (insertRs content text position) false pathRs none ∅
      (indexRs content) where
  named := RelPath.new_self pathRs
  decoded := rfl
  given := fun _ => .inr rfl
  fresh := by
    intro hash mem
    rw [← Option.mem_some_iff.mp mem]
    rfl

def functionF : Text := "fn f() {}".toList

theorem insertsLines_after :
    InsertsLines declaring (insertRs (functionF ++ ['\n']) "// g\n".toList .after) false ∅
      (indexRs (functionF ++ ['\n'])) pathRs (functionF ++ ['\n'])
      (normalizeLineEndingsForContent (functionF ++ ['\n']) "// g\n".toList) .after
      ⟨"f".toList, "function".toList, 1, 1, "f".toList⟩ :=
  (insert_insertsLines_iff (met_insertRs _ _ _) rfl rfl (by decide) (by decide) (by decide)
    (by decide)).mpr (.inr (by decide))

-- The text goes to the end of the symbol's line.
theorem not_insertsLines_after :
    ¬InsertsLines declaring (insertRs functionF "// g\n".toList .after) false ∅
      (indexRs functionF) pathRs functionF
      (normalizeLineEndingsForContent functionF "// g\n".toList) .after
      ⟨"f".toList, "function".toList, 1, 1, "f".toList⟩ := by
  intro inserts
  have fits := fits_of_insertsLines (met_insertRs functionF "// g\n".toList .after) rfl rfl
    (by decide) (by decide) (by decide) (by decide) inserts
  rcases fits with more | ended
  · exact absurd more (by decide)
  · exact absurd ended (by decide)

end Sample

end CodeWeave
