import CodeWeave.Defs.Repository.PrintedDiff

namespace CodeWeave

namespace PrintedSpan

variable (side : PrintedSpan)

theorem solid_text {c : Char} (mem : c ∈ side.text) : isWhitespace c = false := by
  cases List.mem_append.mp mem with
  | inl digit => exact isWhitespace_isDigit (isDigit_of_mem_decimal digit)
  | inr later =>
    cases count : side.count with
    | none =>
      rw [count] at later
      cases later
    | some n =>
      rw [count] at later
      cases List.mem_cons.mp later with
      | inl comma =>
        rw [comma]
        decide
      | inr digit => exact isWhitespace_isDigit (isDigit_of_mem_decimal digit)

theorem not_comma_mem_decimal (n : Nat) : ',' ∉ decimal n := fun mem => by
  cases isDigit_of_mem_decimal mem

theorem parseSpan_text {sign : Char} (signed : sign = '-' ∨ sign = '+') :
    parseSpan (sign :: side.text) = side.span := by
  have unsigned : (sign :: side.text).dropWhile (fun c => c = '-' || c = '+') = side.text := by
    rw [List.dropWhile_cons_of_pos (by simp [signed])]
    cases digits : decimal side.start with
    | nil => exact absurd digits (decimal_ne_nil _)
    | cons c rest =>
      have digit : c.isDigit = true := isDigit_of_mem_decimal (digits ▸ List.mem_cons_self)
      rw [text, digits, List.cons_append, List.dropWhile_cons_of_neg]
      intro sign
      rw [Bool.or_eq_true, decide_eq_true_eq, decide_eq_true_eq] at sign
      cases sign with
      | inl minus => cases minus ▸ digit
      | inr plus => cases plus ▸ digit
  simp only [parseSpan, unsigned]
  cases count : side.count with
  | none =>
    rw [text, count, Option.elim_none, List.append_nil,
      splitOnce_eq_none (not_comma_mem_decimal side.start), Option.getD_none,
      parseUsize_decimal side.start_lt, span, count]
    rfl
  | some n =>
    rw [text, count, Option.elim_some, splitOnce_append (not_comma_mem_decimal side.start),
      Option.getD_some, parseUsize_decimal side.start_lt,
      parseUsize_decimal (side.count_lt n count), span, count]
    rfl

end PrintedSpan

def pathAfter (path : Text) (lines : List Text) : Text :=
  lines.foldl (fun path line => (stripPrefix "+++ b/".toList line).elim path trimEnd) path

theorem pathAfter_eq (path : Text) (lines : List Text) :
    pathAfter path lines =
      ((lines.filterMap (stripPrefix "+++ b/".toList)).getLast?).elim path trimEnd := by
  induction lines using List.reverseRecOn with
  | nil => rfl
  | append_singleton lines line ih =>
    rw [pathAfter, List.foldl_append, List.filterMap_append]
    cases found : stripPrefix "+++ b/".toList line with
    | none =>
      rw [List.filterMap_cons_none found, List.filterMap_nil, List.append_nil, ← ih, List.foldl_cons,
        List.foldl_nil, found]
      rfl
    | some value =>
      rw [List.filterMap_cons_some found, List.filterMap_nil, List.getLast?_concat, List.foldl_cons,
        List.foldl_nil, found]
      rfl

theorem pathAfter_append (path : Text) (lines more : List Text) :
    pathAfter path (lines ++ more) = pathAfter (pathAfter path lines) more :=
  List.foldl_append

namespace PrintedHunk

variable (hunk : PrintedHunk)

theorem head_eq : hunk.head = ['@', '@'] ++ ' ' :: (('-' :: hunk.old.text) ++ ' ' ::
    (('+' :: hunk.new.text) ++ ' ' :: (['@', '@'] ++ hunk.heading ++ ['\n']))) := by
  have start : "@@ -".toList = ['@', '@', ' ', '-'] := by decide
  have middle : " +".toList = [' ', '+'] := by decide
  have stop : " @@".toList = [' ', '@', '@'] := by decide
  unfold head
  simp only [start, middle, stop, List.append_assoc, List.cons_append, List.nil_append]

theorem fields_head : splitWhitespace hunk.head = ['@', '@'] :: ('-' :: hunk.old.text) ::
    ('+' :: hunk.new.text) :: splitWhitespace (['@', '@'] ++ hunk.heading ++ ['\n']) := by
  have solid {sign : Char} (visible : isWhitespace sign = false) (side : PrintedSpan) :
      ∀ c ∈ sign :: side.text, isWhitespace c = false :=
    List.forall_mem_cons.mpr ⟨visible, fun _ mem => side.solid_text mem⟩
  have marks : ∀ c ∈ ['@', '@'], isWhitespace c = false :=
    List.forall_mem_cons.mpr ⟨by decide, List.forall_mem_singleton.mpr (by decide)⟩
  rw [head_eq, splitWhitespace_cons (List.cons_ne_nil _ _) marks (by decide),
    splitWhitespace_cons (List.cons_ne_nil _ _) (solid (by decide) _) (by decide),
    splitWhitespace_cons (List.cons_ne_nil _ _) (solid (by decide) _) (by decide)]

end PrintedHunk

namespace HunkParse

variable {ws : Workspace} {parse : HunkParse} {line : Text}

theorem finish_path : (finish ws parse).path = parse.path := by
  rw [finish]
  split <;> rfl

theorem finish_header : (finish ws parse).header = parse.header := by
  rw [finish]
  split <;> rfl

theorem finish_active : (finish ws parse).active = none := by
  rw [finish]
  split
  · assumption
  · rfl

theorem line_git (git : "diff --git ".toList <+: line) :
    parse.line ws line = ⟨(finish ws parse).hunks, [], line, none⟩ := by
  rw [HunkParse.line, if_pos git]
  simp only [finish_active]

theorem line_plain (idle : parse.active = none) (git : ¬"diff --git ".toList <+: line)
    (path : ¬"+++ b/".toList <+: line) (hunk : ¬"@@ ".toList <+: line) :
    parse.line ws line = { parse with header := parse.header ++ line } := by
  have other : stripPrefix "+++ b/".toList line = none := stripPrefix_eq_none path
  simp only [HunkParse.line, if_neg git, other, if_neg hunk, idle]

theorem line_path (idle : parse.active = none) (value : Text) :
    parse.line ws ("+++ b/".toList ++ value) =
      { parse with path := trimEnd value, header := parse.header ++ ("+++ b/".toList ++ value) } := by
  have git : ¬"diff --git ".toList <+: "+++ b/".toList ++ value :=
    not_prefix_of_head (c := '+') (d := 'd') rfl rfl (by decide)
  have hunk : ¬"@@ ".toList <+: "+++ b/".toList ++ value :=
    not_prefix_of_head (c := '+') (d := '@') rfl rfl (by decide)
  simp only [HunkParse.line, if_neg git, stripPrefix_append, if_neg hunk, idle]

theorem line_head (hunk : PrintedHunk) :
    parse.line ws hunk.head = { finish ws parse with
      active := some ⟨hunk.old.span, hunk.new.span, parse.header ++ hunk.head⟩ } := by
  have parts := hunk.head_eq
  have first : hunk.head.head? = some '@' := by
    rw [parts]
    rfl
  have git : ¬"diff --git ".toList <+: hunk.head :=
    not_prefix_of_head (d := 'd') first rfl (by decide)
  have path : stripPrefix "+++ b/".toList hunk.head = none :=
    stripPrefix_eq_none (not_prefix_of_head (d := '+') first rfl (by decide))
  have opens : "@@ ".toList <+: hunk.head := by
    have words : "@@ ".toList = ['@', '@', ' '] := by decide
    rw [parts, words]
    exact ⟨_, rfl⟩
  simp only [HunkParse.line, if_neg git, path, if_pos opens, hunk.fields_head, finish_header]
  simp only [List.getElem?_cons_succ, List.getElem?_cons_zero, Option.map_some, Option.getD_some,
    PrintedSpan.parseSpan_text _ (.inl rfl), PrintedSpan.parseSpan_text _ (.inr rfl)]

theorem line_body {c : Char} {active : OpenHunk} (first : line.head? = some c)
    (marked : c ∈ [' ', '+', '-', '\\', '\n']) (busy : parse.active = some active) :
    parse.line ws line = { parse with
      path := pathAfter parse.path [line]
      active := some { active with text := active.text ++ line } } := by
  have git : ¬"diff --git ".toList <+: line :=
    not_prefix_of_head (d := 'd') first rfl fun eq => absurd (eq ▸ marked) (by decide)
  have hunk : ¬"@@ ".toList <+: line :=
    not_prefix_of_head (d := '@') first rfl fun eq => absurd (eq ▸ marked) (by decide)
  simp only [HunkParse.line, if_neg git, if_neg hunk]
  cases found : stripPrefix "+++ b/".toList line with
  | none =>
    have same : pathAfter parse.path [line] = parse.path := by
      rw [pathAfter, List.foldl_cons, found, Option.elim_none, List.foldl_nil]
    simp only [busy, same]
  | some value =>
    have changed : pathAfter parse.path [line] = trimEnd value := by
      rw [pathAfter, List.foldl_cons, found, Option.elim_some, List.foldl_nil]
    simp only [busy, changed]

theorem foldl_plain {lines : List Text} (idle : parse.active = none)
    (plain : ∀ line ∈ lines, ¬"diff --git ".toList <+: line ∧ ¬"+++ b/".toList <+: line ∧
      ¬"@@ ".toList <+: line) :
    lines.foldl (HunkParse.line ws) parse = { parse with header := parse.header ++ lines.flatten } := by
  induction lines generalizing parse with
  | nil => rw [List.flatten_nil, List.append_nil]; rfl
  | cons line lines ih =>
    obtain ⟨⟨git, path, hunk⟩, later⟩ := List.forall_mem_cons.mp plain
    have rest := @ih { parse with header := parse.header ++ line } idle later
    rw [List.foldl_cons, line_plain idle git path hunk, rest, List.flatten_cons, List.append_assoc]

theorem foldl_body {lines : List Text} {active : OpenHunk} (busy : parse.active = some active)
    (marked : ∀ line ∈ lines, ∃ c ∈ line.head?, c ∈ [' ', '+', '-', '\\', '\n']) :
    lines.foldl (HunkParse.line ws) parse = { parse with
      path := pathAfter parse.path lines
      active := some { active with text := active.text ++ lines.flatten } } := by
  induction lines generalizing parse active with
  | nil =>
    rw [List.flatten_nil, List.append_nil, ← busy]
    rfl
  | cons line lines ih =>
    obtain ⟨⟨c, first, mark⟩, later⟩ := List.forall_mem_cons.mp marked
    rw [List.foldl_cons, line_body first mark busy, ih rfl later, ← pathAfter_append,
      List.flatten_cons, List.append_assoc]
    rfl

theorem foldl_hunk (hunk : PrintedHunk) :
    (hunk.head :: hunk.lines).foldl (HunkParse.line ws) parse = { finish ws parse with
      path := pathAfter parse.path hunk.lines
      active := some ⟨hunk.old.span, hunk.new.span, parse.header ++ hunk.text⟩ } := by
  rw [List.foldl_cons, line_head, foldl_body rfl hunk.marked]
  simp only [finish_path, PrintedHunk.text, List.append_assoc]

def parsed (ws : Workspace) (header : Text) : Text → List PrintedHunk → List DiffHunk
  | _, [] => []
  | path, hunk :: rest =>
    let path := pathAfter path hunk.lines
    (finish ws ⟨[], path, header, some ⟨hunk.old.span, hunk.new.span, header ++ hunk.text⟩⟩).hunks ++
      parsed ws header path rest

theorem finish_hunks (parse : HunkParse) :
    (finish ws parse).hunks = parse.hunks ++ (finish ws { parse with hunks := [] }).hunks := by
  rw [finish, finish]
  cases parse.active with
  | none => exact (List.append_nil _).symm
  | some hunk => rfl

theorem foldl_hunks (hunks : List PrintedHunk) :
    (finish ws ((hunks.flatMap fun hunk => hunk.head :: hunk.lines).foldl (HunkParse.line ws)
      parse)).hunks = (finish ws parse).hunks ++ parsed ws parse.header parse.path hunks := by
  induction hunks generalizing parse with
  | nil => exact (List.append_nil _).symm
  | cons hunk rest ih =>
    rw [List.flatMap_cons, List.foldl_append, foldl_hunk, ih, finish_hunks, List.append_assoc]
    simp only [finish_header, parsed]

end HunkParse

namespace PrintedFile

variable {ws : Workspace} (file : PrintedFile)

def lines : List Text :=
  file.first :: file.header ++ (if file.hunks = [] then [] else [file.pathLine]) ++
    file.hunks.flatMap fun hunk => hunk.head :: hunk.lines

theorem flatten_lines : file.lines.flatten = file.text := by
  have hunks : (file.hunks.flatMap fun hunk => hunk.head :: hunk.lines).flatten =
      (file.hunks.map PrintedHunk.text).flatten := by
    rw [List.flatMap_def, List.flatten_flatten, List.map_map]
    rfl
  rw [lines, List.flatten_append, List.flatten_append, List.flatten_cons, hunks, text, head]
  split
  · rfl
  · rw [List.flatten_singleton]

theorem trimEnd_pathLine : trimEnd (file.path ++ file.blank ++ ['\n']) = file.path := by
  rw [List.append_assoc, trimEnd_append, file.path_trimmed]
  intro c mem
  cases List.mem_append.mp mem with
  | inl blank => exact file.blank_white c blank
  | inr newline =>
    rw [List.mem_singleton.mp newline]
    decide

open HunkParse

theorem foldl_lines (parse : HunkParse) :
    (finish ws (file.lines.foldl (line ws) parse)).hunks =
      (finish ws parse).hunks ++ parsed ws file.head file.path file.hunks := by
  have git : "diff --git ".toList <+: file.first :=
    ⟨file.names ++ ['\n'], (List.append_assoc ..).symm⟩
  have plain := @foldl_plain ws ⟨(finish ws parse).hunks, [], file.first, none⟩ file.header rfl
    file.plain
  rw [lines, List.foldl_append, List.foldl_append, List.foldl_cons, line_git git, plain]
  by_cases none : file.hunks = []
  · rw [none, List.flatMap_nil, parsed, List.append_nil]
    rfl
  · have path := @line_path ws ⟨(finish ws parse).hunks, [], file.first ++ file.header.flatten, .none⟩
      rfl (file.path ++ file.blank ++ ['\n'])
    have whole : "+++ b/".toList ++ (file.path ++ file.blank ++ ['\n']) = file.pathLine := by
      unfold pathLine
      simp only [List.append_assoc]
    rw [whole, file.trimEnd_pathLine] at path
    rw [if_neg none, List.foldl_cons, List.foldl_nil, path, foldl_hunks, head, if_neg none]
    rfl

theorem parsed_parts (header path path' : Text) (hunks : List PrintedHunk) :
    (parsed ws header path' hunks).map DiffHunk.parts =
        hunks.map (fun hunk => (path, hunk.old.span, hunk.new.span, header ++ hunk.text)) ↔
      ∀ n < hunks.length, pathAfter path' ((hunks.take (n + 1)).flatMap PrintedHunk.lines) = path := by
  induction hunks generalizing path' with
  | nil => exact ⟨fun _ _ bound => absurd bound (Nat.not_lt_zero _), fun _ => rfl⟩
  | cons hunk rest ih =>
    have first : (parsed ws header path' (hunk :: rest)).map DiffHunk.parts =
        (pathAfter path' hunk.lines, hunk.old.span, hunk.new.span, header ++ hunk.text) ::
          (parsed ws header (pathAfter path' hunk.lines) rest).map DiffHunk.parts := rfl
    rw [first, List.map_cons, List.cons.injEq, Prod.mk.injEq, ih]
    constructor
    · rintro ⟨⟨here, -⟩, later⟩ n bound
      cases n with
      | zero => rwa [List.take_succ_cons, List.take_zero, List.flatMap_singleton]
      | succ n =>
        rw [List.take_succ_cons, List.flatMap_cons, pathAfter_append]
        exact later n (Nat.lt_of_succ_lt_succ bound)
    · intro all
      refine ⟨⟨?_, rfl⟩, fun n bound => ?_⟩
      · have here := all 0 (Nat.succ_pos _)
        rwa [List.take_succ_cons, List.take_zero, List.flatMap_singleton] at here
      · have later := all (n + 1) (Nat.succ_lt_succ bound)
        rwa [List.take_succ_cons, List.flatMap_cons, pathAfter_append] at later

theorem keepsPath_iff : file.KeepsPath ↔ ∀ n < file.hunks.length,
    pathAfter file.path ((file.hunks.take (n + 1)).flatMap PrintedHunk.lines) = file.path := by
  have last (lines : List Text) : pathAfter file.path lines = file.path ↔
      ∀ value, (lines.filterMap (stripPrefix "+++ b/".toList)).getLast? = some value →
        trimEnd value = file.path := by
    rw [pathAfter_eq]
    cases (lines.filterMap (stripPrefix "+++ b/".toList)).getLast? with
    | none => exact ⟨fun _ _ none => absurd none (Option.some_ne_none _).symm, fun _ => rfl⟩
    | some value =>
      exact ⟨fun same _ found => Option.some.inj found ▸ same, fun all => all value rfl⟩
  constructor
  · exact fun keeps n _ => (last _).mpr (keeps (n + 1))
  · intro all n
    rw [← last]
    by_cases inside : n ≤ file.hunks.length
    · cases n with
      | zero => rfl
      | succ n => exact all n inside
    · rw [List.take_of_length_le (Nat.le_of_not_le inside)]
      cases size : file.hunks.length with
      | zero =>
        rw [List.eq_nil_of_length_eq_zero size]
        rfl
      | succ m =>
        have whole := all m (size ▸ Nat.lt_succ_self m)
        rwa [← size, List.take_length] at whole

theorem isLine_lines : ∀ line ∈ file.lines, IsLine line := by
  have append {first second : Text} (left : '\n' ∉ first) (right : '\n' ∉ second) :
      '\n' ∉ first ++ second := by
    rw [List.mem_append, not_or]
    exact ⟨left, right⟩
  intro line mem
  rw [lines, List.mem_append, List.mem_append, List.mem_cons] at mem
  obtain ((rfl | among) | path) | body := mem
  · exact ⟨_, append (by decide) file.names_single, rfl⟩
  · exact file.isLine line among
  · split at path
    · cases path
    · obtain rfl := List.mem_singleton.mp path
      exact ⟨_, append (append (by decide) file.path_single) file.blank_single, rfl⟩
  · obtain ⟨hunk, -, among⟩ := List.mem_flatMap.mp body
    cases List.mem_cons.mp among with
    | inl head =>
      have solid (side : PrintedSpan) : '\n' ∉ side.text := fun newline =>
        Bool.false_ne_true ((side.solid_text newline).symm.trans (by decide))
      refine ⟨_, append (append (append (append (append ?_ (solid hunk.old)) ?_) (solid hunk.new)) ?_)
        hunk.heading_single, head⟩
      · decide
      · decide
      · decide
    | inr line => exact hunk.isLine _ line

end PrintedFile

theorem splitInclusive_flatten {lines : List Text} (isLine : ∀ line ∈ lines, IsLine line) :
    splitInclusive lines.flatten = lines := by
  induction lines with
  | nil => rfl
  | cons line lines ih =>
    obtain ⟨⟨body, single, rfl⟩, later⟩ := List.forall_mem_cons.mp isLine
    rw [List.flatten_cons, List.append_assoc, List.singleton_append, splitInclusive_eq,
      Pieces.cut_body_append single, ← splitInclusive_eq, ih later]

open HunkParse

theorem finish_foldl_files {ws : Workspace} (files : List PrintedFile) (parse : HunkParse) :
    (finish ws ((files.flatMap PrintedFile.lines).foldl (line ws) parse)).hunks =
      (finish ws parse).hunks ++
        files.flatMap fun file => parsed ws file.head file.path file.hunks := by
  induction files generalizing parse with
  | nil => exact (List.append_nil _).symm
  | cons file rest ih =>
    rw [List.flatMap_cons, List.foldl_append, ih, file.foldl_lines, List.append_assoc,
      List.flatMap_cons]

theorem parse_printedDiff (ws : Workspace) (files : List PrintedFile) :
    (Diff.parse ws (printedDiff files)).hunks =
      files.flatMap fun file => parsed ws file.head file.path file.hunks := by
  have split : splitInclusive (printedDiff files) = files.flatMap PrintedFile.lines := by
    have text : printedDiff files = (files.flatMap PrintedFile.lines).flatten := by
      rw [List.flatMap_def, List.flatten_flatten, List.map_map, printedDiff]
      exact congrArg List.flatten (List.map_congr_left fun file _ => file.flatten_lines.symm)
    rw [text]
    refine splitInclusive_flatten fun line mem => ?_
    obtain ⟨file, -, among⟩ := List.mem_flatMap.mp mem
    exact file.isLine_lines line among
  rw [Diff.parse, parseHunks, split, finish_foldl_files]
  rfl

theorem length_parsed (ws : Workspace) (header path : Text) (hunks : List PrintedHunk) :
    (parsed ws header path hunks).length = hunks.length := by
  induction hunks generalizing path with
  | nil => rfl
  | cons hunk rest ih =>
    rw [parsed, List.length_append, ih]
    exact Nat.add_comm ..

/-- The hunks of printed files are recovered just where each file keeps its path. -/
theorem recoversHunks_iff (ws : Workspace) (files : List PrintedFile) :
    RecoversHunks ws files ↔ ∀ file ∈ files, file.KeepsPath := by
  rw [RecoversHunks, parse_printedDiff]
  induction files with
  | nil => exact ⟨fun _ _ mem => absurd mem List.not_mem_nil, fun _ => rfl⟩
  | cons file rest ih =>
    have same : ((parsed ws file.head file.path file.hunks).map DiffHunk.parts).length =
        file.parts.length := by
      rw [List.length_map, length_parsed, PrintedFile.parts, List.length_map]
    rw [List.flatMap_cons, List.map_append, List.flatMap_cons, List.forall_mem_cons, ← ih,
      file.keepsPath_iff, ← PrintedFile.parsed_parts]
    constructor
    · exact fun eq => List.append_inj eq same
    · rintro ⟨here, later⟩
      rw [later]
      exact congrArg (· ++ _) here

namespace Sample

def addedPath : PrintedHunk where
  old := ⟨1, some 0, by decide, by decide⟩
  new := ⟨2, none, by decide, fun _ mem => absurd mem (Option.some_ne_none _).symm⟩
  heading := []
  lines := ["+++ b/other\n".toList]
  heading_single := List.not_mem_nil
  isLine := List.forall_mem_singleton.mpr ⟨"+++ b/other".toList, by decide, by decide⟩
  marked := List.forall_mem_singleton.mpr ⟨'+', rfl, by decide⟩

def misread : PrintedFile where
  names := "a/notes b/notes".toList
  header := []
  path := "notes".toList
  blank := []
  hunks := [addedPath]
  names_single := by decide
  isLine := fun _ mem => absurd mem List.not_mem_nil
  plain := fun _ mem => absurd mem List.not_mem_nil
  path_single := by decide
  path_trimmed := by decide
  blank_single := List.not_mem_nil
  blank_white := fun _ mem => absurd mem List.not_mem_nil

end Sample

theorem not_recoversHunks : ¬RecoversHunks .plain [Sample.misread] := by
  rw [RecoversHunks, parse_printedDiff, List.flatMap_singleton, List.flatMap_singleton,
    PrintedFile.parts, PrintedFile.parsed_parts]
  intro keeps
  have path : pathAfter "notes".toList ["+++ b/other\n".toList] = "notes".toList :=
    keeps 0 Nat.one_pos
  exact absurd path (by decide)

end CodeWeave
