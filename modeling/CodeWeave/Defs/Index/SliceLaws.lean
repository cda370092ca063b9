import CodeWeave.Defs.Index.Query
import CodeWeave.Defs.LineLaws

namespace CodeWeave

open Pieces

/-- A line by its one-based number. A file without lines has one, and it is empty. -/
def lineAt (content : Text) (line : Nat) : Text := ((lines content)[line - 1]?).getD []

def lineCount (content : Text) : Nat := max (lines content).length 1

def joinLines (parts : List Text) : Text := ['\n'].intercalate parts

def dropTerminator (text : Text) : Text :=
  if text.getLast? = some '\n' then text.dropLast else text

/-- A text is what a handle for the lines addresses. -/
structure Addressed (content : Text) (startLine endLine : Nat) (text : Text) : Prop where
  joined : text = joinLines (((lines content).take endLine).drop (startLine - 1))
  newlines : text.count '\n' = endLine - startLine
  line : ∀ k, 1 ≤ k → k ≤ endLine - startLine + 1 →
    (text.splitOn '\n')[k - 1]? = some (lineAt content (startLine + k - 1))
  selected : ∃ start stop, lineRange content startLine endLine = .ok (start, stop) ∧
    text = dropTerminator (crlfToLf (slice content start stop))

theorem joinLines_cons_cons (line next : Text) (rest : List Text) :
    joinLines (line :: next :: rest) = line ++ '\n' :: joinLines (next :: rest) := by
  simp [joinLines, List.intercalate_cons_cons]

theorem joinLines_singleton (line : Text) : joinLines [line] = line := by
  simp [joinLines, List.intercalate]

def pushLine (output line : Text) : Text := if output = [] then line else output ++ '\n' :: line

theorem foldl_pushLine_of_ne_nil {output : Text} (started : output ≠ []) (parts : List Text) :
    parts.foldl pushLine output = joinLines (output :: parts) := by
  induction parts generalizing output with
  | nil => exact (joinLines_singleton output).symm
  | cons line rest ih =>
    rw [List.foldl_cons, pushLine, if_neg started, ih (List.append_ne_nil_of_left_ne_nil started _)]
    cases rest with
    | nil => rw [joinLines_singleton, joinLines_cons_cons, joinLines_singleton]
    | cons next rest =>
      rw [joinLines_cons_cons, joinLines_cons_cons, joinLines_cons_cons, List.append_assoc,
        List.cons_append]

theorem foldl_pushLine_cons (line : Text) (parts : List Text) :
    (line :: parts).foldl pushLine [] = parts.foldl pushLine line := by
  rw [List.foldl_cons, pushLine, if_pos rfl]

theorem count_joinLines {parts : List Text} (plain : ∀ line ∈ parts, '\n' ∉ line) :
    (joinLines parts).count '\n' = parts.length - 1 := by
  induction parts with
  | nil => rfl
  | cons line rest ih =>
    have none : line.count '\n' = 0 := List.count_eq_zero.mpr (plain line List.mem_cons_self)
    cases rest with
    | nil => rw [joinLines_singleton, none]; rfl
    | cons next rest =>
      have later := ih fun other mem => plain other (List.mem_cons_of_mem _ mem)
      rw [joinLines_cons_cons, List.count_append, none, List.count_cons_self, later]
      simp

theorem count_foldl_pushLine (parts : List Text) (plain : ∀ line ∈ parts, '\n' ∉ line) :
    (parts.foldl pushLine []).count '\n' ≤ parts.length - 1 := by
  induction parts with
  | nil => exact Nat.le_refl 0
  | cons line rest ih =>
    rw [foldl_pushLine_cons]
    by_cases blank : line = []
    · have later := ih fun other mem => plain other (List.mem_cons_of_mem _ mem)
      rw [blank]
      exact later.trans (by rw [List.length_cons]; omega)
    · rw [foldl_pushLine_of_ne_nil blank, count_joinLines plain]

section

variable {content : Text} {startLine endLine : Nat} (low : 1 ≤ startLine)
  (order : startLine ≤ endLine)

include low order

theorem sliceLines_eq : sliceLines content startLine endLine =
    (((lines content).take endLine).drop (startLine - 1)).foldl pushLine [] := by
  have count : endLine + 1 - startLine = endLine - (startLine - 1) := by omega
  rw [sliceLines, Nat.max_eq_left low, Nat.max_eq_left order, List.drop_take, count]
  rfl

theorem length_range (within : endLine ≤ (lines content).length) :
    (((lines content).take endLine).drop (startLine - 1)).length = endLine - startLine + 1 := by
  rw [List.length_drop, List.length_take, Nat.min_eq_left within]
  omega

end

theorem dropTerminator_append (first : Text) {second : Text} (nonempty : second ≠ []) :
    dropTerminator (first ++ second) = first ++ dropTerminator second := by
  obtain ⟨rest, c, rfl⟩ := List.eq_nil_or_concat' second |>.resolve_left nonempty
  rw [dropTerminator, dropTerminator, ← List.append_assoc, List.getLast?_concat,
    List.getLast?_concat, List.dropLast_concat, List.dropLast_concat]
  split
  · rfl
  · rw [List.append_assoc]

theorem crlfToLf_ne_nil {text : Text} (nonempty : text ≠ []) : crlfToLf text ≠ [] := by
  cases text using crlfToLf.induct with
  | case1 rest => exact List.cons_ne_nil _ _
  | case2 c rest other => rw [crlfToLf_cons other]; exact List.cons_ne_nil _ _
  | case3 => exact absurd rfl nonempty

theorem lines_ne_nil {text : Text} (nonempty : text ≠ []) : lines text ≠ [] := by
  rw [lines_eq]
  exact fun none => nonempty (cut_eq_nil.mp (List.map_eq_nil_iff.mp none))

theorem dropTerminator_crlfToLf (text : Text) :
    dropTerminator (crlfToLf text) = joinLines (lines text) := by
  induction text using text_induction with
  | nil => rfl
  | last body unmarked nonempty =>
    have open_end : body.getLast? ≠ some '\n' := fun last => unmarked (List.mem_of_getLast? last)
    rw [crlfToLf_unmarked unmarked, dropTerminator, if_neg open_end,
      lines_unmarked unmarked nonempty, joinLines_singleton]
  | piece body rest unmarked ih =>
    have parts : body ++ '\n' :: rest = (body ++ ['\n']) ++ rest := by simp
    have clear : (body ++ ['\n']).getLast? ≠ some '\r' := by
      rw [List.getLast?_concat]
      exact nofun
    rw [lines_body_append unmarked, parts, crlfToLf_append clear, crlfToLf_piece unmarked]
    by_cases empty : rest = []
    · rw [empty, crlfToLf, List.append_nil, dropTerminator, List.getLast?_concat, if_pos rfl,
        List.dropLast_concat, lines_nil, joinLines_singleton]
    · obtain ⟨next, more, shape⟩ := List.exists_cons_of_ne_nil (lines_ne_nil empty)
      rw [dropTerminator_append _ (crlfToLf_ne_nil empty), ih, shape, joinLines_cons_cons,
        List.append_assoc]
      rfl

section

variable {content : Text} {startLine endLine : Nat} (low : 1 ≤ startLine)
  (order : startLine ≤ endLine) (within : endLine ≤ lineCount content)

include low order within

theorem addressed_joinLines : Addressed content startLine endLine
    (joinLines (((lines content).take endLine).drop (startLine - 1))) := by
  have plain : ∀ line ∈ ((lines content).take endLine).drop (startLine - 1), '\n' ∉ line :=
    fun line mem => newline_notMem_lines (List.mem_of_mem_take (List.mem_of_mem_drop mem))
  have selected : ∃ start stop, lineRange content startLine endLine = .ok (start, stop) ∧
      joinLines (((lines content).take endLine).drop (startLine - 1)) =
        dropTerminator (crlfToLf (slice content start stop)) := by
    obtain ⟨start, stop, range, -, between, -⟩ := lineRange_eq content order
    exact ⟨start, stop, range, by rw [between, dropTerminator_crlfToLf, lines_linesBetween]⟩
  by_cases empty : content = []
  · subst empty
    have first : startLine = 1 ∧ endLine = 1 := by
      rw [lineCount, lines_nil] at within
      simp at within
      omega
    obtain ⟨rfl, rfl⟩ := first
    refine ⟨rfl, rfl, fun k low high => ?_, selected⟩
    obtain rfl : k = 1 := by omega
    rfl
  · have counted : lineCount content = (lines content).length :=
      Nat.max_eq_left (List.length_pos_iff.mpr (lines_ne_nil empty))
    rw [counted] at within
    have long := length_range low order within
    refine ⟨rfl, ?_, fun k lowK highK => ?_, selected⟩
    · rw [count_joinLines plain, long]
      rfl
    · have some_line : ((lines content).take endLine).drop (startLine - 1) ≠ [] := by
        rw [← List.length_pos_iff, long]
        exact Nat.succ_pos _
      have index : startLine - 1 + (k - 1) = startLine + k - 1 - 1 := by omega
      have inside : startLine + k - 1 - 1 < (lines content).length := by omega
      rw [joinLines, List.splitOn_intercalate '\n' plain some_line, List.getElem?_drop,
        List.getElem?_take_of_lt (by omega), index, lineAt, List.getElem?_eq_getElem inside]
      rfl

/-- A read gives the text that the handle of its lines addresses just where the first of
several lines is not blank: the blank lines a slice starts with are lost. -/
theorem sliceLines_addressed_iff :
    Addressed content startLine endLine (sliceLines content startLine endLine) ↔
      startLine = endLine ∨ lineAt content startLine ≠ [] := by
  have addressed := addressed_joinLines low order within
  have plain : ∀ line ∈ ((lines content).take endLine).drop (startLine - 1), '\n' ∉ line :=
    fun line mem => newline_notMem_lines (List.mem_of_mem_take (List.mem_of_mem_drop mem))
  have long : content ≠ [] →
      (((lines content).take endLine).drop (startLine - 1)).length = endLine - startLine + 1 := by
    intro nonempty
    refine length_range low order ?_
    rwa [lineCount, Nat.max_eq_left (List.length_pos_iff.mpr (lines_ne_nil nonempty))] at within
  have first : lineAt content startLine =
      ((((lines content).take endLine).drop (startLine - 1))[0]?).getD [] := by
    rw [List.getElem?_drop, Nat.add_zero, List.getElem?_take_of_lt (by omega), lineAt]
  rw [sliceLines_eq low order, first]
  cases parts : ((lines content).take endLine).drop (startLine - 1) with
  | nil =>
    rw [parts] at addressed long
    refine iff_of_true addressed (.inl ?_)
    by_cases empty : content = []
    · rw [empty, lineCount, lines_nil] at within
      simp at within
      omega
    · exact absurd (long empty) (by simp)
  | cons line rest =>
    rw [parts] at addressed long plain
    have nonempty : content ≠ [] := by
      rintro rfl
      rw [lines_nil] at parts
      simp at parts
    have size := long nonempty
    rw [List.length_cons] at size
    by_cases blank : line = []
    · cases rest with
      | nil =>
        rw [blank] at addressed ⊢
        rw [List.length_nil] at size
        exact iff_of_true addressed (.inl (by omega))
      | cons next more =>
        rw [List.length_cons] at size
        refine iff_of_false (fun shown => ?_) ?_
        · -- the slice of the later lines is all there is, and one newline short
          have fewer := count_foldl_pushLine (next :: more) fun other mem =>
            plain other (List.mem_cons_of_mem _ mem)
          have exact := shown.newlines
          rw [foldl_pushLine_cons, blank] at exact
          rw [List.length_cons] at fewer
          omega
        · rintro (same | first)
          · omega
          · exact first blank
    · rw [foldl_pushLine_cons, foldl_pushLine_of_ne_nil blank]
      exact iff_of_true addressed (.inr blank)

end

namespace Sample

theorem sliceLines_addressed_middle :
    Addressed "a\n\nb\r\nc".toList 1 3 (sliceLines "a\n\nb\r\nc".toList 1 3) :=
  (sliceLines_addressed_iff (by decide) (by decide) (by decide)).mpr (.inr (by decide))

theorem sliceLines_not_addressed :
    ¬Addressed "\na\n".toList 1 2 (sliceLines "\na\n".toList 1 2) :=
  fun addressed => absurd addressed.newlines (by decide)

end Sample

end CodeWeave
