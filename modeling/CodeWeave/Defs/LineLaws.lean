import CodeWeave.Defs.Workspace.TextEdit
import CodeWeave.Lib.Pieces

/-! The lines of a text, as `str::lines` and as the line offsets of an edit count them.
Both cut the text after its newlines. -/

namespace CodeWeave

open Pieces

def lineBody (piece : Text) : Text :=
  if piece.getLast? = some '\n' then
    let line := piece.dropLast
    if line.getLast? = some '\r' then line.dropLast else line
  else piece

theorem splitInclusive_eq (text : Text) : splitInclusive text = cut '\n' text := by
  induction text with
  | nil => rfl
  | cons c rest ih =>
    rw [splitInclusive, cut, ih]
    cases cut '\n' rest <;> rfl

theorem lines_eq (text : Text) : lines text = (cut '\n' text).map lineBody := by
  rw [← splitInclusive_eq]
  rfl

@[elab_as_elim]
theorem text_induction {motive : Text → Prop} (nil : motive [])
    (last : ∀ body, '\n' ∉ body → body ≠ [] → motive body)
    (piece : ∀ body rest, '\n' ∉ body → motive rest → motive (body ++ '\n' :: rest))
    (text : Text) : motive text :=
  pieces_induction nil last piece text

theorem lines_nil : lines [] = [] := rfl

theorem lines_append {above : Text} (ended : Ended '\n' above) (below : Text) :
    lines (above ++ below) = lines above ++ lines below := by
  rw [lines_eq, lines_eq, lines_eq, cut_append ended, List.map_append]

theorem lineBody_unmarked {body : Text} (unmarked : '\n' ∉ body) : lineBody body = body :=
  if_neg fun last => unmarked (List.mem_of_getLast? last)

theorem lineBody_lf (body : Text) : lineBody (body ++ ['\n']) =
    if body.getLast? = some '\r' then body.dropLast else body := by
  rw [lineBody, List.getLast?_concat, if_pos rfl, List.dropLast_concat]

theorem lines_unmarked {body : Text} (unmarked : '\n' ∉ body) (nonempty : body ≠ []) :
    lines body = [body] := by
  rw [lines_eq, cut_unmarked unmarked nonempty, List.map_singleton, lineBody_unmarked unmarked]

theorem lines_body_append {body : Text} (unmarked : '\n' ∉ body) (rest : Text) :
    lines (body ++ '\n' :: rest) = lineBody (body ++ ['\n']) :: lines rest := by
  rw [lines_eq, lines_eq, cut_body_append unmarked, List.map_cons]

theorem newline_notMem_lineBody {body : Text} (unmarked : '\n' ∉ body) :
    '\n' ∉ lineBody (body ++ ['\n']) := by
  rw [lineBody_lf]
  split
  · exact fun mem => unmarked (List.dropLast_subset _ mem)
  · exact unmarked

theorem newline_notMem_lines {text line : Text} (mem : line ∈ lines text) : '\n' ∉ line := by
  rw [lines_eq] at mem
  obtain ⟨piece, among, rfl⟩ := List.mem_map.mp mem
  obtain ⟨body, unmarked, closed | ⟨same, -⟩⟩ := shape_of_mem_cut among
  · rw [closed]
    exact newline_notMem_lineBody unmarked
  · rw [same, lineBody_unmarked unmarked]
    exact unmarked

theorem lineOffsetFrom_eq (text : Text) {line current : Nat} (ahead : current < line)
    (offset : Nat) : lineOffsetFrom line text offset current =
      offset + ((cut '\n' text).take (line - current)).flatten.length := by
  induction text generalizing offset current with
  | nil => simp [lineOffsetFrom, cut]
  | cons c rest ih =>
    obtain ⟨left, eq⟩ : ∃ left, line - current = left + 1 := ⟨line - current - 1, by omega⟩
    rw [lineOffsetFrom, cut, eq]
    split
    · rw [List.take_succ_cons, List.flatten_cons, List.length_append, List.length_singleton]
      split
      · next here =>
        have none : left = 0 := by omega
        simp [none]
      · rw [ih (by omega), show line - (current + 1) = left by omega]
        omega
    · rw [ih ahead, eq]
      cases pieces : cut '\n' rest with
      | nil => simp
      | cons piece more =>
        simp only [List.take_succ_cons, List.flatten_cons, List.length_append, List.length_cons]
        omega

theorem lineOffset_eq (content : Text) (line : Nat) :
    lineOffset content line = ((cut '\n' content).take (line - 1)).flatten.length := by
  rw [lineOffset]
  split
  · next first => simp [Nat.sub_eq_zero_of_le first]
  · next later => rw [lineOffsetFrom_eq content (Nat.lt_of_not_le later), Nat.zero_add]

def linesBetween (content : Text) (first last : Nat) : Text :=
  (((cut '\n' content).take last).drop first).flatten

theorem linesBetween_cut (content : Text) (first last : Nat) :
    cut '\n' (linesBetween content first last) = ((cut '\n' content).take last).drop first := by
  have upTo := @cut_drop Char '\n' _ ((cut '\n' content).take last).flatten first
  rw [cut_take] at upTo
  exact upTo

theorem lines_linesBetween (content : Text) (first last : Nat) :
    lines (linesBetween content first last) = ((lines content).take last).drop first := by
  rw [lines_eq, linesBetween_cut, lines_eq, List.map_drop, List.map_take]

theorem linesBetween_append (content : Text) {first middle last : Nat} (low : first ≤ middle)
    (high : middle ≤ last) :
    linesBetween content first middle ++ linesBetween content middle last =
      linesBetween content first last := by
  have below : ((cut '\n' content).take middle).drop first =
      (((cut '\n' content).take last).drop first).take (middle - first) := by
    rw [List.take_drop, List.take_take, Nat.add_sub_cancel' low, Nat.min_eq_left high]
  have above : ((cut '\n' content).take last).drop middle =
      (((cut '\n' content).take last).drop first).drop (middle - first) := by
    rw [List.drop_drop, Nat.add_sub_cancel' low]
  rw [linesBetween, linesBetween, linesBetween, ← List.flatten_append, below, above,
    List.take_append_drop]

theorem linesBetween_all (content : Text) {last : Nat} (enough : (lines content).length ≤ last) :
    linesBetween content 0 last = content := by
  rw [lines_eq, List.length_map] at enough
  rw [linesBetween, List.take_of_length_le enough, List.drop_zero, flatten_cut]

theorem linesBetween_self (content : Text) (line : Nat) : linesBetween content line line = [] := by
  rw [linesBetween, List.drop_eq_nil_of_le (List.length_take_le _ _), List.flatten_nil]

theorem ended_linesBetween (content : Text) {first last : Nat}
    (within : last < (lines content).length) : Ended '\n' (linesBetween content first last) := by
  rw [lines_eq, List.length_map] at within
  intro c final
  refine ended_take last within c ?_
  have parts : ((cut '\n' content).take last).flatten =
      (((cut '\n' content).take last).take first).flatten ++ linesBetween content first last := by
    rw [linesBetween, ← List.flatten_append, List.take_append_drop]
  rw [parts, List.getLast?_append, final, Option.some_or]

theorem lineOffset_parts (content : Text) (line : Nat) :
    content.take (lineOffset content line) = linesBetween content 0 (line - 1) ∧
      content.drop (lineOffset content line) =
        linesBetween content (line - 1) (max (line - 1) (lines content).length) := by
  have parts : content = linesBetween content 0 (line - 1) ++
      linesBetween content (line - 1) (max (line - 1) (lines content).length) := by
    rw [linesBetween_append content (Nat.zero_le _) (Nat.le_max_left _ _),
      linesBetween_all content (Nat.le_max_right _ _)]
  have offset : lineOffset content line = (linesBetween content 0 (line - 1)).length :=
    lineOffset_eq content line
  rw [offset]
  constructor
  · conv => lhs; arg 2; rw [parts]
    exact List.take_left
  · conv => lhs; arg 2; rw [parts]
    exact List.drop_left

theorem lineRange_eq (content : Text) {startLine endLine : Nat} (order : startLine ≤ endLine) :
    ∃ start stop, lineRange content startLine endLine = .ok (start, stop) ∧
      content.take start = linesBetween content 0 (startLine - 1) ∧
      slice content start stop = linesBetween content (startLine - 1) endLine ∧
      content.drop stop = linesBetween content endLine (max endLine (lines content).length) := by
  have whole : content = linesBetween content 0 (startLine - 1) ++
      linesBetween content (startLine - 1) (max endLine (lines content).length) := by
    rw [linesBetween_append content (Nat.zero_le _) (by omega),
      linesBetween_all content (Nat.le_max_right _ _)]
  have split : content = linesBetween content 0 endLine ++
      linesBetween content endLine (max endLine (lines content).length) := by
    rw [linesBetween_append content (Nat.zero_le _) (Nat.le_max_left _ _),
      linesBetween_all content (Nat.le_max_right _ _)]
  have start_eq : lineOffset content startLine =
      (linesBetween content 0 (startLine - 1)).length := lineOffset_eq content startLine
  have stop_eq : lineOffset content (endLine + 1) = (linesBetween content 0 endLine).length :=
    lineOffset_eq content (endLine + 1)
  have startWithin : (linesBetween content 0 (startLine - 1)).length ≤ content.length := by
    conv => rhs; rw [whole]
    exact List.length_append ▸ Nat.le_add_right _ _
  have stopWithin : (linesBetween content 0 endLine).length ≤ content.length := by
    conv => rhs; rw [split]
    exact List.length_append ▸ Nat.le_add_right _ _
  refine ⟨(linesBetween content 0 (startLine - 1)).length, (linesBetween content 0 endLine).length,
    ?_, ?_, ?_, ?_⟩
  · rw [lineRange, if_neg (Nat.not_lt.mpr order), start_eq, stop_eq, Nat.min_eq_left startWithin,
      Nat.min_eq_left stopWithin]
  · conv => lhs; arg 2; rw [whole]
    exact List.take_left
  · exact take_drop_flatten content (startLine - 1) endLine (by omega)
  · conv => lhs; arg 2; rw [split]
    exact List.drop_left

theorem crlfToLf_cons {c : Char} {rest : Text}
    (other : ∀ tail, c = '\r' → rest = '\n' :: tail → False) :
    crlfToLf (c :: rest) = c :: crlfToLf rest := by
  rw [crlfToLf]
  exact other

theorem crlfToLf_append {first : Text} (clear : first.getLast? ≠ some '\r') (second : Text) :
    crlfToLf (first ++ second) = crlfToLf first ++ crlfToLf second := by
  have behind {c : Char} {rest : Text} (nonempty : rest ≠ [])
      (clear : (c :: rest).getLast? ≠ some '\r') : rest.getLast? ≠ some '\r' := by
    rwa [List.getLast?_cons_of_ne_nil nonempty] at clear
  induction first using crlfToLf.induct with
  | case1 rest ih =>
    rw [List.cons_append, List.cons_append, crlfToLf, crlfToLf, List.cons_append]
    by_cases empty : rest = []
    · rw [empty]
      rfl
    · rw [ih (behind empty (behind (List.cons_ne_nil _ _) clear))]
  | case2 c rest other ih =>
    rw [crlfToLf_cons other, List.cons_append, List.cons_append]
    by_cases empty : rest = []
    · rw [empty] at clear ⊢
      rw [List.nil_append, crlfToLf_cons fun tail carriage _ => clear (by rw [carriage]; rfl)]
      rfl
    · rw [crlfToLf_cons, ih (behind empty clear)]
      intro tail carriage eq
      obtain ⟨d, more, shape⟩ := List.exists_cons_of_ne_nil empty
      rw [shape, List.cons_append, List.cons.injEq] at eq
      exact other more carriage (by rw [shape, eq.1])
  | case3 => rfl

theorem crlfToLf_unmarked {text : Text} (unmarked : '\n' ∉ text) : crlfToLf text = text := by
  induction text with
  | nil => rfl
  | cons c rest ih =>
    rw [List.mem_cons, not_or] at unmarked
    rw [crlfToLf_cons, ih unmarked.2]
    rintro tail - rfl
    exact unmarked.2 List.mem_cons_self

theorem crlfToLf_crlf {line : Text} (unmarked : '\n' ∉ line) :
    crlfToLf (line ++ ['\r', '\n']) = line ++ ['\n'] := by
  induction line with
  | nil => rfl
  | cons c rest ih =>
    rw [List.mem_cons, not_or] at unmarked
    rw [List.cons_append, crlfToLf_cons, ih unmarked.2, List.cons_append]
    rintro tail - eq
    cases rest with
    | nil => cases eq
    | cons d more =>
      rw [List.cons_append, List.cons.injEq] at eq
      exact unmarked.2 (by rw [eq.1]; exact List.mem_cons_self)

theorem crlfToLf_piece {body : Text} (unmarked : '\n' ∉ body) :
    crlfToLf (body ++ ['\n']) = lineBody (body ++ ['\n']) ++ ['\n'] := by
  rw [lineBody_lf]
  by_cases carriage : body.getLast? = some '\r'
  · obtain ⟨line, rfl⟩ := List.getLast?_eq_some_iff.mp carriage
    have plain : '\n' ∉ line := fun mem => unmarked (List.mem_append_left _ mem)
    rw [if_pos carriage, List.dropLast_concat, List.append_assoc]
    exact crlfToLf_crlf plain
  · rw [if_neg carriage, crlfToLf_append carriage, crlfToLf_unmarked unmarked]
    rfl

end CodeWeave
