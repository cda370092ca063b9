import CodeWeave.Defs.Intelligence.Position
import CodeWeave.Defs.LineLaws

/-! Which positions a content has, and where they are.  A position is a line and a prefix of
it, counted in the units of an encoding. -/

namespace CodeWeave

def unitCount (text : Text) : PositionEncoding → Nat
  | .utf8 => utf8Count text
  | .utf16 => utf16Count text
  | .utf32 => text.length

/-- A column is read by what the characters before it count. -/
structure CountsColumns (size : Char → Nat) (count : Text → Nat)
    (read : Text → Nat → AppResult Text) : Prop where
  count_nil : count [] = 0
  count_cons : ∀ c rest, count (c :: rest) = size c + count rest
  positive : ∀ c, 0 < size c
  read_zero : ∀ line, read line 0 = .ok []
  read_nil : ∀ column, ∃ error, read [] (column + 1) = .error error
  read_cons : ∀ c rest column, ∃ error, read (c :: rest) (column + 1) =
    if column + 1 < size c then .error error
    else (read rest (column + 1 - size c)).map (c :: ·)

theorem CountsColumns.eq_ok {size : Char → Nat} {count : Text → Nat}
    {read : Text → Nat → AppResult Text} (counts : CountsColumns size count read)
    {line start : Text} {column : Nat} :
    read line column = .ok start ↔ start <+: line ∧ count start = column := by
  have nothing {text : Text} (zero : count text = 0) : text = [] := by
    cases text with
    | nil => rfl
    | cons c rest =>
      have positive := counts.positive c
      rw [counts.count_cons] at zero
      omega
  induction line generalizing column start with
  | nil =>
    rw [List.prefix_nil]
    cases column with
    | zero =>
      rw [counts.read_zero, Except.ok.injEq]
      exact ⟨fun same => same ▸ ⟨rfl, counts.count_nil⟩, fun none => none.1.symm⟩
    | succ column =>
      obtain ⟨error, outside⟩ := counts.read_nil column
      rw [outside]
      refine iff_of_false (fun same => by cases same) ?_
      rintro ⟨rfl, same⟩
      rw [counts.count_nil] at same
      cases same
  | cons c rest ih =>
    cases column with
    | zero =>
      rw [counts.read_zero, Except.ok.injEq]
      exact ⟨fun same => same ▸ ⟨List.nil_prefix, counts.count_nil⟩,
        fun none => (nothing none.2).symm⟩
    | succ column =>
      obtain ⟨error, here⟩ := counts.read_cons c rest column
      have begins (found : start <+: c :: rest) (counted : count start = column + 1) :
          ∃ more, start = c :: more := by
        cases start with
        | nil =>
          rw [counts.count_nil] at counted
          cases counted
        | cons d more => exact ⟨more, by rw [(List.cons_prefix_cons.mp found).1]⟩
      rw [here]
      split
      · next split =>
        refine iff_of_false (fun same => by cases same) fun ⟨found, counted⟩ => ?_
        obtain ⟨more, rfl⟩ := begins found counted
        rw [counts.count_cons] at counted
        omega
      · next whole =>
        constructor
        · intro same
          cases read_rest : read rest (column + 1 - size c) with
          | error error =>
            rw [read_rest] at same
            cases same
          | ok more =>
            rw [read_rest] at same
            obtain ⟨found, counted⟩ := ih.mp read_rest
            rw [← Except.ok.inj same, counts.count_cons, List.cons_prefix_cons]
            exact ⟨⟨rfl, found⟩, by omega⟩
        · rintro ⟨found, counted⟩
          obtain ⟨more, rfl⟩ := begins found counted
          rw [counts.count_cons] at counted
          have later := ih.mpr ⟨(List.cons_prefix_cons.mp found).2,
            (by omega : count more = column + 1 - size c)⟩
          rw [later]
          rfl

theorem countsColumns_utf16 : CountsColumns utf16Len utf16Count prefixForUtf16Column where
  count_nil := rfl
  count_cons _ _ := rfl
  positive c := by
    rw [utf16Len]
    split <;> decide
  read_zero line := by cases line <;> rfl
  read_nil _ := ⟨_, rfl⟩
  read_cons _ _ _ := ⟨_, rfl⟩

theorem countsColumns_utf8 : CountsColumns Char.utf8Size utf8Count prefixForUtf8Column where
  count_nil := rfl
  count_cons _ _ := rfl
  positive := Char.utf8Size_pos
  read_zero line := by cases line <;> rfl
  read_nil _ := ⟨_, rfl⟩
  read_cons _ _ _ := ⟨_, rfl⟩

theorem prefixForServerColumn_eq_ok {line start : Text} {column : Nat}
    {encoding : PositionEncoding} :
    prefixForServerColumn line column encoding = .ok start ↔
      start <+: line ∧ unitCount start encoding = column := by
  cases encoding with
  | utf8 => exact countsColumns_utf8.eq_ok
  | utf16 => exact countsColumns_utf16.eq_ok
  | utf32 =>
    rw [prefixForServerColumn, unitCount]
    split
    · next within =>
      rw [Except.ok.injEq]
      constructor
      · rintro rfl
        exact ⟨List.take_prefix _ _, List.length_take_of_le within⟩
      · rintro ⟨found, rfl⟩
        exact (List.prefix_iff_eq_take.mp found).symm
    · next outside =>
      refine iff_of_false (fun same => by cases same) ?_
      rintro ⟨found, rfl⟩
      exact outside found.length_le

def lineStart (content : Text) (line : Nat) : Text :=
  ((content.splitOn '\n').take line).flatMap fun text => text ++ ['\n']

theorem lineStart_zero (content : Text) : lineStart content 0 = [] := rfl

section

variable {body : Text} (unmarked : '\n' ∉ body)

include unmarked

theorem splitOn_unmarked : body.splitOn '\n' = [body] := List.splitOn_eq_singleton unmarked

theorem splitOn_body (rest : Text) :
    (body ++ '\n' :: rest).splitOn '\n' = body :: rest.splitOn '\n' :=
  List.splitOn_append_cons_self_of_not_mem unmarked rest

theorem lineStart_body (rest : Text) (line : Nat) :
    lineStart (body ++ '\n' :: rest) (line + 1) = body ++ ['\n'] ++ lineStart rest line := by
  rw [lineStart, splitOn_body unmarked, List.take_succ_cons, List.flatMap_cons, lineStart]

theorem splitInclusive_body (rest : Text) :
    splitInclusive (body ++ '\n' :: rest) = (body ++ ['\n']) :: splitInclusive rest := by
  rw [splitInclusive_eq, splitInclusive_eq, Pieces.cut_body_append unmarked]

theorem stripNewline_unmarked : stripNewline body = body :=
  if_neg fun last => unmarked (List.mem_of_getLast? last)

end

theorem stripNewline_concat (body : Text) : stripNewline (body ++ ['\n']) = body := by
  rw [stripNewline, if_pos List.getLast?_concat, List.dropLast_concat]

theorem content_of_line {content text : Text} {line : Nat}
    (found : (content.splitOn '\n')[line]? = some text) :
    ∃ rest, content = lineStart content line ++ text ++ rest := by
  induction content using text_induction generalizing line with
  | nil =>
    cases line with
    | zero =>
      obtain rfl := Option.some.inj found
      exact ⟨[], rfl⟩
    | succ line => cases found
  | last body unmarked nonempty =>
    rw [splitOn_unmarked unmarked] at found
    cases line with
    | zero =>
      obtain rfl := Option.some.inj found
      exact ⟨[], (List.append_nil body).symm⟩
    | succ line => cases found
  | piece body rest unmarked ih =>
    rw [splitOn_body unmarked] at found
    cases line with
    | zero =>
      obtain rfl := Option.some.inj found
      exact ⟨_, rfl⟩
    | succ line =>
      obtain ⟨below, shape⟩ := ih found
      refine ⟨below, ?_⟩
      rw [lineStart_body unmarked]
      conv => lhs; rw [shape]
      simp

theorem lineContent_eq_ok {content text : Text} {line : Nat} :
    lineContent content line = .ok text ↔ (content.splitOn '\n')[line]? = some text := by
  rw [lineContent]
  split
  · next found =>
    rw [found, Except.ok.injEq, Option.some.injEq]
  · next absent =>
    rw [absent]
    exact iff_of_false (fun same => by cases same) (fun same => by cases same)

def selectedLine (content : Text) (line base : Nat) : Option (Nat × Text) :=
  (selectLine (splitInclusive content) line base).or
    (if line = (lines content).length ∧ content.getLast? = some '\n' then
      some (base + utf8Count content, [])
    else none)

theorem selectedLine_eq {content : Text} (nonempty : content ≠ []) (line base : Nat) :
    selectedLine content line base = ((content.splitOn '\n')[line]?).map fun text =>
      (base + utf8Count (lineStart content line), text) := by
  induction content using text_induction generalizing line base with
  | nil => exact absurd rfl nonempty
  | last body unmarked _ =>
    have open_end : body.getLast? ≠ some '\n' := fun last => unmarked (List.mem_of_getLast? last)
    rw [selectedLine, splitInclusive_eq, Pieces.cut_unmarked unmarked nonempty,
      if_neg fun both => open_end both.2, Option.or_none, splitOn_unmarked unmarked]
    cases line with
    | zero => rw [selectLine, stripNewline_unmarked unmarked]; rfl
    | succ line => rfl
  | piece body rest unmarked ih =>
    rw [selectedLine, splitInclusive_body unmarked, splitOn_body unmarked]
    cases line with
    | zero => rw [selectLine, stripNewline_concat, Option.some_or]; rfl
    | succ line =>
      rw [selectLine, lines_body_append unmarked, List.length_cons, List.getElem?_cons_succ,
        lineStart_body unmarked, utf8Count_append (body ++ ['\n'])]
      simp only [Nat.add_right_cancel_iff]
      by_cases empty : rest = []
      · subst empty
        rw [splitInclusive, selectLine, Option.none_or, lines_nil, List.length_nil,
          List.getLast?_concat]
        cases line with
        | zero => simp [lineStart_zero, utf8Count]
        | succ line => rfl
      · have whole : base + utf8Count (body ++ '\n' :: rest) =
            base + utf8Count (body ++ ['\n']) + utf8Count rest := by
          have parts : body ++ '\n' :: rest = (body ++ ['\n']) ++ rest := by simp
          rw [parts, utf8Count_append, Nat.add_assoc]
        have last : (body ++ '\n' :: rest).getLast? = rest.getLast? := by
          rw [List.getLast?_append_of_ne_nil _ (List.cons_ne_nil _ _),
            List.getLast?_cons_of_ne_nil empty]
        rw [last, whole]
        have later := ih empty line (base + utf8Count (body ++ ['\n']))
        rw [selectedLine] at later
        rw [later]
        simp only [Nat.add_assoc]

/-- A position: a line and a prefix of it, at these columns of the two encodings. -/
structure At (content : Text) (line : Nat) (start : Text) (encoding : PositionEncoding)
    (server utf16 : Nat) : Prop where
  within : ∃ text, (content.splitOn '\n')[line]? = some text ∧ start <+: text
  server_eq : unitCount start encoding = server
  utf16_eq : utf16Count start = utf16

section

variable {content : Text} {line column character : Nat} {encoding : PositionEncoding}

theorem utf16CharacterFromServer_eq_ok :
    utf16CharacterFromServer content line column encoding = .ok character ↔
      ∃ start, At content line start encoding column character := by
  simp only [utf16CharacterFromServer, bind_eq_ok, lineContent_eq_ok, prefixForServerColumn_eq_ok,
    Except.ok.injEq]
  constructor
  · rintro ⟨text, found, start, ⟨within, server⟩, utf16⟩
    exact ⟨start, ⟨text, found, within⟩, server, utf16⟩
  · rintro ⟨start, ⟨text, found, within⟩, server, utf16⟩
    exact ⟨text, found, start, ⟨within, server⟩, utf16⟩

theorem serverCharacterFromUtf16_eq_ok {oneBasedLine : Nat} :
    serverCharacterFromUtf16 content oneBasedLine column encoding = .ok character ↔
      ∃ start, At content (oneBasedLine - 1) start encoding character column := by
  simp only [serverCharacterFromUtf16, bind_eq_ok, lineContent_eq_ok, countsColumns_utf16.eq_ok]
  constructor
  · rintro ⟨text, found, start, ⟨within, utf16⟩, server⟩
    refine ⟨start, ⟨text, found, within⟩, ?_, utf16⟩
    cases encoding with
    | utf8 => exact Except.ok.inj server
    | utf16 => exact utf16.trans (Except.ok.inj server)
    | utf32 => exact Except.ok.inj server
  · rintro ⟨start, ⟨text, found, within⟩, server, utf16⟩
    refine ⟨text, found, start, ⟨within, utf16⟩, ?_⟩
    rw [← server]
    cases encoding with
    | utf8 => rfl
    | utf16 => exact congrArg Except.ok utf16.symm
    | utf32 => rfl

theorem serverCharacterFromUtf16_iff {oneBasedLine : Nat} :
    serverCharacterFromUtf16 content oneBasedLine column encoding = .ok character ↔
      utf16CharacterFromServer content (oneBasedLine - 1) character encoding = .ok column := by
  rw [serverCharacterFromUtf16_eq_ok, utf16CharacterFromServer_eq_ok]

def OffsetAt (content : Text) (line column : Nat) (encoding : PositionEncoding) (offset : Nat) :
    Prop :=
  ∃ start rest, (∃ character, At content line start encoding column character) ∧
    content = lineStart content line ++ start ++ rest ∧
    offset = utf8Count (lineStart content line) + utf8Count start

theorem offsetForServerPosition_eq_ok {offset : Nat} (nonempty : content ≠ []) :
    offsetForServerPosition content line column encoding = .ok offset ↔
      OffsetAt content line column encoding offset := by
  have selected := selectedLine_eq nonempty line 0
  rw [selectedLine] at selected
  simp only [Nat.zero_add] at selected
  simp only [offsetForServerPosition, selected, bind_eq_ok, okOr_eq_ok, Option.map_eq_some_iff,
    prefixForServerColumn_eq_ok, Except.ok.injEq]
  constructor
  · rintro ⟨_, ⟨text, found, rfl⟩, start, ⟨within, server⟩, rfl⟩
    obtain ⟨more, rfl⟩ := within
    obtain ⟨below, whole⟩ := content_of_line found
    refine ⟨start, more ++ below, ⟨_, ⟨_, found, List.prefix_append _ _⟩, server, rfl⟩, ?_, rfl⟩
    conv => lhs; rw [whole]
    simp
  · rintro ⟨start, rest, ⟨character, ⟨text, found, within⟩, server, -⟩, -, rfl⟩
    exact ⟨_, ⟨text, found, rfl⟩, start, ⟨within, server⟩, rfl⟩

theorem offsetForServerPosition_of_empty {line column : Nat} {offset : Nat} :
    offsetForServerPosition [] line column encoding ≠ .ok offset := by
  have none : selectedLine [] line 0 = none := by
    rw [selectedLine, if_neg fun both => by cases both.2]
    cases line <;> rfl
  intro same
  simp only [offsetForServerPosition, bind_eq_ok, okOr_eq_ok] at same
  obtain ⟨found, selected, -⟩ := same
  cases none.symm.trans selected

theorem exists_offset_iff (nonempty : content ≠ []) :
    (∃ offset, offsetForServerPosition content line column encoding = .ok offset) ↔
      ∃ character, utf16CharacterFromServer content line column encoding = .ok character := by
  simp only [offsetForServerPosition_eq_ok nonempty, utf16CharacterFromServer_eq_ok, OffsetAt]
  constructor
  · rintro ⟨offset, start, rest, ⟨character, here⟩, -⟩
    exact ⟨character, start, here⟩
  · rintro ⟨character, start, here⟩
    obtain ⟨text, found, more, rfl⟩ := here.within
    obtain ⟨below, whole⟩ := content_of_line found
    refine ⟨_, start, more ++ below, ⟨character, here⟩, ?_, rfl⟩
    conv => lhs; rw [whole]
    simp

theorem exists_character_empty :
    (∃ character, utf16CharacterFromServer [] line column encoding = .ok character) ↔
      line = 0 ∧ column = 0 := by
  simp only [utf16CharacterFromServer_eq_ok]
  constructor
  · rintro ⟨character, start, ⟨text, found, within⟩, server, -⟩
    cases line with
    | succ line => cases found
    | zero =>
      obtain rfl := Option.some.inj found
      obtain rfl := List.prefix_nil.mp within
      refine ⟨rfl, ?_⟩
      rw [← server]
      cases encoding <;> rfl
  · rintro ⟨rfl, rfl⟩
    exact ⟨0, [], ⟨[], rfl, List.nil_prefix⟩, by cases encoding <;> rfl, rfl⟩

end

/-- The conversions of a position are inverse to each other, and it has an offset, that of
the characters before it, exactly when they have it. -/
def PositionsAgree (content : Text) (line column : Nat) (encoding : PositionEncoding) : Prop :=
  (∀ character, serverCharacterFromUtf16 content (line + 1) column encoding = .ok character →
    utf16CharacterFromServer content line character encoding = .ok column) ∧
  (∀ character, utf16CharacterFromServer content line column encoding = .ok character →
    serverCharacterFromUtf16 content (line + 1) character encoding = .ok column) ∧
  ((∃ offset, offsetForServerPosition content line column encoding = .ok offset) ↔
    ∃ character, utf16CharacterFromServer content line column encoding = .ok character) ∧
  ∀ offset, offsetForServerPosition content line column encoding = .ok offset →
    OffsetAt content line column encoding offset

/-- Positions agree everywhere but at the start of an empty content. -/
theorem positionsAgree_iff (content : Text) (line column : Nat) (encoding : PositionEncoding) :
    PositionsAgree content line column encoding ↔ content ≠ [] ∨ line ≠ 0 ∨ column ≠ 0 := by
  have inverse (character : Nat) :
      serverCharacterFromUtf16 content (line + 1) column encoding = .ok character →
        utf16CharacterFromServer content line character encoding = .ok column :=
    serverCharacterFromUtf16_iff.mp
  have inverse' (character : Nat) :
      utf16CharacterFromServer content line column encoding = .ok character →
        serverCharacterFromUtf16 content (line + 1) character encoding = .ok column :=
    (@serverCharacterFromUtf16_iff content character column encoding (line + 1)).mpr
  by_cases nonempty : content = []
  · subst nonempty
    have none (offset : Nat) : offsetForServerPosition [] line column encoding ≠ .ok offset :=
      offsetForServerPosition_of_empty
    constructor
    · rintro ⟨-, -, same, -⟩
      rw [exists_character_empty] at same
      by_contra start
      simp only [ne_eq, not_true_eq_false, false_or, not_or, not_not] at start
      obtain ⟨offset, found⟩ := same.mpr start
      exact none offset found
    · intro elsewhere
      refine ⟨inverse, inverse', ?_, fun offset found => absurd found (none offset)⟩
      rw [exists_character_empty]
      refine iff_of_false (fun ⟨offset, found⟩ => none offset found) fun start => ?_
      rcases elsewhere with nothing | other | other
      · exact nothing rfl
      · exact other start.1
      · exact other start.2
  · exact iff_of_true ⟨inverse, inverse', exists_offset_iff nonempty,
      fun offset => (offsetForServerPosition_eq_ok nonempty).mp⟩ (.inl nonempty)

theorem not_positionsAgree_empty : ¬PositionsAgree [] 0 0 .utf16 := by
  rintro ⟨-, -, same, -⟩
  obtain ⟨offset, found⟩ := same.mpr ⟨0, rfl⟩
  exact offsetForServerPosition_of_empty found

end CodeWeave
