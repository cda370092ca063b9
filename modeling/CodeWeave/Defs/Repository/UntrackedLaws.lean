import CodeWeave.Defs.Intelligence.UriLaws
import CodeWeave.Defs.Repository.CliGit
import CodeWeave.Defs.Repository.DiffLaws

namespace CodeWeave

theorem size_bytes (text : Text) : (Text.bytes text).size = utf8Count text := by
  have length : (Text.bytes text).data.toList.length = utf8Count text := by
    rw [bytes_toList]
    induction text with
    | nil => rfl
    | cons c rest ih =>
      rw [List.flatMap_cons, List.length_append, ih, String.length_utf8EncodeChar, utf8Count]
  exact length

theorem utf8Count_takeBytes_le (text : Text) (n : Nat) : utf8Count (takeBytes text n) ≤ n := by
  induction text generalizing n with
  | nil => exact Nat.zero_le n
  | cons c rest ih =>
    rw [takeBytes]
    split
    · have later := ih (n - c.utf8Size)
      rw [utf8Count]
      omega
    · exact Nat.zero_le n

theorem holds_truncateOutput (text : Text) (budget : Budget) :
    budget.holds (utf8Count (truncateOutput text budget)) = true := by
  cases budget with
  | none => rfl
  | some maxChars =>
    refine decide_eq_true ?_
    rw [truncateOutput]
    split
    · assumption
    · rw [utf8Count_append]
      split
      · next room =>
        have taken := utf8Count_takeBytes_le text (maxChars - utf8Count truncationMarker)
        omega
      · have taken := utf8Count_takeBytes_le text (maxChars - utf8Count [])
        simp only [utf8Count] at taken ⊢
        omega

namespace Repository

variable {repo : Repository} {disk : Disk} {budget : Budget}

theorem holds_untrackedPatches (paths : List RelPath) (diff : Text)
    (fits : budget.holds (utf8Count diff) = true) :
    budget.holds (utf8Count (repo.untrackedPatches disk budget paths diff)) = true := by
  induction paths generalizing diff with
  | nil => exact fits
  | cons path rest ih =>
    simp only [untrackedPatches]
    split
    · exact ih diff fits
    · split
      · exact holds_truncateOutput _ _
      · next whole =>
        rw [Bool.or_eq_true, not_or, Bool.not_eq_true', Bool.not_eq_false] at whole
        exact ih _ whole.2

end Repository

def HasCrlf (content : Text) : Prop := ['\r', '\n'] <:+: content

theorem hasCrlf_body {body : Text} (single : '\n' ∉ body) (rest : Text) :
    HasCrlf (body ++ '\n' :: rest) ↔ body.getLast? = some '\r' ∨ HasCrlf rest := by
  constructor
  · rintro ⟨before, after, eq⟩
    have parts := splitOnce_append single rest
    rw [← eq] at parts
    by_cases early : '\n' ∈ before
    · obtain ⟨first, more, rfl, none⟩ := List.eq_append_cons_of_mem early
      rw [List.append_assoc, List.append_assoc, List.cons_append, splitOnce_append none] at parts
      obtain ⟨-, rfl⟩ := Prod.mk.inj (Option.some.inj parts)
      exact .inr ⟨more, after, List.append_assoc ..⟩
    · have first : '\n' ∉ before ++ ['\r'] := by
        rw [List.mem_append, not_or]
        exact ⟨early, by decide⟩
      have here : before ++ ['\r', '\n'] ++ after = before ++ ['\r'] ++ '\n' :: after := by
        rw [List.append_assoc, List.append_assoc]
        rfl
      rw [here, splitOnce_append first] at parts
      obtain ⟨rfl, -⟩ := Prod.mk.inj (Option.some.inj parts)
      exact .inl List.getLast?_concat
  · rintro (last | later)
    · obtain ⟨before, rfl⟩ := List.getLast?_eq_some_iff.mp last
      refine ⟨before, rest, ?_⟩
      rw [List.append_assoc, List.append_assoc]
      rfl
    · exact later.trans ⟨body ++ ['\n'], [], by rw [List.append_nil, List.append_assoc]; rfl⟩

def closedLines (content : Text) : Text := (lines content).flatMap fun line => line ++ ['\n']

theorem closedLines_body {body : Text} (single : '\n' ∉ body) (rest : Text) :
    closedLines (body ++ '\n' :: rest) = lineBody (body ++ ['\n']) ++ '\n' :: closedLines rest := by
  rw [closedLines, lines_body_append single, List.flatMap_cons, List.append_assoc]
  rfl

theorem closedLines_last {body : Text} (single : '\n' ∉ body) (nonempty : body ≠ []) :
    closedLines body = body ++ ['\n'] := by
  rw [closedLines, lines_unmarked single nonempty, List.flatMap_singleton]

theorem lineBody_eq_self {body : Text} :
    lineBody (body ++ ['\n']) = body ↔ body.getLast? ≠ some '\r' := by
  rw [lineBody_lf]
  split
  · next last =>
    refine ⟨fun eq => ?_, fun other => absurd last other⟩
    obtain ⟨before, rfl⟩ := List.getLast?_eq_some_iff.mp last
    have length := congrArg List.length eq
    rw [List.dropLast_concat, List.length_append, List.length_singleton] at length
    omega
  · next other => exact ⟨fun _ => other, fun _ => rfl⟩

def endedText (content : Text) : Text :=
  if content = [] ∨ content.getLast? = some '\n' then content else content ++ ['\n']

theorem endedText_body (body rest : Text) :
    endedText (body ++ '\n' :: rest) = body ++ '\n' :: endedText rest := by
  cases rest with
  | nil => rw [endedText, if_pos (.inr List.getLast?_concat)]; rfl
  | cons c rest =>
    have last : (body ++ '\n' :: c :: rest).getLast? = (c :: rest).getLast? := by
      rw [List.getLast?_append_of_ne_nil _ (List.cons_ne_nil _ _), List.getLast?_cons_cons]
    rw [endedText, endedText, last]
    by_cases newline : (c :: rest).getLast? = some '\n'
    · rw [if_pos (.inr newline), if_pos (.inr newline)]
    · rw [if_neg (not_or.mpr ⟨List.append_ne_nil_of_right_ne_nil _ (List.cons_ne_nil _ _), newline⟩),
        if_neg (not_or.mpr ⟨List.cons_ne_nil _ _, newline⟩), List.append_assoc]
      rfl

theorem closedLines_eq_endedText (content : Text) :
    closedLines content = endedText content ↔ ¬HasCrlf content := by
  induction content using text_induction with
  | nil => exact ⟨fun _ within => absurd within.length_le (by decide), fun _ => rfl⟩
  | last body single nonempty =>
    have other : body.getLast? ≠ some '\n' := fun last => single (List.mem_of_getLast? last)
    rw [closedLines_last single nonempty, endedText, if_neg (not_or.mpr ⟨nonempty, other⟩)]
    refine ⟨fun _ within => single (within.subset ?_), fun _ => rfl⟩
    exact List.mem_cons_of_mem _ (List.mem_singleton_self _)
  | piece body rest single ih =>
    rw [closedLines_body single, endedText_body, hasCrlf_body single, not_or, ← ih, ← ne_eq,
      ← lineBody_eq_self]
    constructor
    · intro eq
      have parts := splitOnce_append (newline_notMem_lineBody single) (closedLines rest)
      rw [eq, splitOnce_append single] at parts
      obtain ⟨same, later⟩ := Prod.mk.inj (Option.some.inj parts)
      exact ⟨same.symm, later.symm⟩
    · rintro ⟨same, later⟩
      rw [same, later]

def newFileSpan (count : Nat) : Text :=
  if count = 1 then "@@ -0,0 +1 @@\n".toList
  else "@@ -0,0 +1,".toList ++ decimal count ++ " @@\n".toList

def addedLine (line : Text) : Text := '+' :: line ++ ['\n']

def noNewlineLine : Text := "\\ No newline at end of file\n".toList

def added (lines : List Text) (marked : Bool) : Text :=
  let content := lines.flatMap fun line => line ++ ['\n']
  if marked then content.dropLast else content

/-- A section makes a new file of this path and content with one hunk: its header counts the
lines, and these, with the marker, are the content. -/
def NewFilePatch (path : RelPath) (content patch : Text) : Prop :=
  ∃ (lines : List Text) (marked : Bool), lines ≠ [] ∧ (∀ line ∈ lines, '\n' ∉ line) ∧
    patch = Repository.newFileHeader path "100644" ++ (newFileSpan lines.length ++
      lines.flatMap addedLine ++ if marked then noNewlineLine else []) ∧
    added lines marked = content

def newFileSection (path : RelPath) (content : Text) : Text :=
  Repository.newFileHeader path "100644" ++ Repository.newFileHunk content false

def hunkLines (lines : List Text) (marked : Bool) : List Text :=
  lines.map addedLine ++ if marked then [noNewlineLine] else []

theorem flatten_hunkLines (lines : List Text) (marked : Bool) :
    (hunkLines lines marked).flatten =
      lines.flatMap addedLine ++ if marked then noNewlineLine else [] := by
  rw [hunkLines, List.flatten_append, ← List.flatMap_def]
  cases marked <;> rfl

theorem addedLine_injective : Function.Injective addedLine := by
  intro line line' same
  exact List.append_cancel_right (List.cons.inj same).2

theorem hunkLines_inj {lines lines' : List Text} {marked marked' : Bool}
    (same : hunkLines lines marked = hunkLines lines' marked') :
    lines = lines' ∧ marked = marked' := by
  -- Added lines are told from the marker by their first character.
  have filtered (lines : List Text) (marked : Bool) :
      (hunkLines lines marked).filter (fun line => line.head? = some '+') = lines.map addedLine := by
    have kept : ∀ line ∈ lines.map addedLine, decide (line.head? = some '+') = true := by
      intro line mem
      obtain ⟨body, -, rfl⟩ := List.mem_map.mp mem
      rfl
    rw [hunkLines, List.filter_append, List.filter_eq_self.mpr kept]
    cases marked <;> exact List.append_nil _
  have eq : lines = lines' := by
    refine List.map_injective_iff.mpr addedLine_injective ?_
    rw [← filtered lines marked, same, filtered]
  subst eq
  have marks := List.append_cancel_left same
  cases marked <;> cases marked' <;> first | exact ⟨rfl, rfl⟩ | cases marks

theorem isLine_hunkLines {lines : List Text} (single : ∀ line ∈ lines, '\n' ∉ line)
    (marked : Bool) : ∀ line ∈ hunkLines lines marked, IsLine line := by
  intro line mem
  cases List.mem_append.mp mem with
  | inl plus =>
    obtain ⟨body, among, rfl⟩ := List.mem_map.mp plus
    refine ⟨'+' :: body, ?_, rfl⟩
    rw [List.mem_cons, not_or]
    exact ⟨by decide, single body among⟩
  | inr marker =>
    cases marked with
    | false => cases marker
    | true =>
      obtain rfl := List.mem_singleton.mp marker
      exact ⟨"\\ No newline at end of file".toList, by decide, rfl⟩

theorem isLine_newFileSpan (count : Nat) : IsLine (newFileSpan count) := by
  rw [newFileSpan]
  split
  · exact ⟨"@@ -0,0 +1 @@".toList, by decide, rfl⟩
  · refine ⟨"@@ -0,0 +1,".toList ++ decimal count ++ " @@".toList, ?_, ?_⟩
    · have digits : '\n' ∉ decimal count := fun mem => by cases isDigit_of_mem_decimal mem
      rw [List.mem_append, List.mem_append, not_or, not_or]
      exact ⟨⟨by decide, digits⟩, by decide⟩
    · rw [List.append_assoc _ _ ['\n']]
      rfl

theorem newFileHunk_eq {content : Text} (nonempty : content ≠ []) :
    Repository.newFileHunk content false = newFileSpan (lines content).length ++
      (hunkLines (lines content) (content.getLast? ≠ some '\n')).flatten := by
  have some : (lines content).length ≠ 0 := by
    rw [lines_eq, List.length_map, ne_eq, List.length_eq_zero_iff, Pieces.cut_eq_nil]
    exact nonempty
  simp only [Repository.newFileHunk, Bool.not_false, Bool.true_and, flatten_hunkLines, newFileSpan,
    ← List.append_assoc]
  split
  · next none => exact absurd none some
  · next single => rw [single, if_pos rfl]; rfl
  · next count _ many => rw [if_neg many]; rfl

theorem closedLines_concat {content : Text} (nonempty : content ≠ []) :
    ∃ init, closedLines content = init ++ ['\n'] := by
  have some : lines content ≠ [] := by
    rw [lines_eq, ne_eq, List.map_eq_nil_iff, Pieces.cut_eq_nil]
    exact nonempty
  obtain ⟨before, last, parts⟩ := (List.eq_nil_or_concat (lines content)).resolve_left some
  refine ⟨(before.flatMap fun line => line ++ ['\n']) ++ last, ?_⟩
  rw [closedLines, parts, List.concat_eq_append, List.flatMap_append, List.flatMap_singleton,
    List.append_assoc]

theorem added_lines {content : Text} (nonempty : content ≠ []) :
    added (lines content) (content.getLast? ≠ some '\n') = content ↔ ¬HasCrlf content := by
  have whole : (lines content).flatMap (fun line => line ++ ['\n']) = closedLines content := rfl
  rw [← closedLines_eq_endedText, added, whole, endedText]
  by_cases last : content.getLast? = some '\n'
  · simp only [last, ne_eq, not_true_eq_false, decide_false, Bool.false_eq_true, if_false, or_true,
      if_true]
  · simp only [last, ne_eq, not_false_eq_true, decide_true, if_true, or_false, if_neg nonempty]
    obtain ⟨init, concat⟩ := closedLines_concat nonempty
    rw [concat, List.dropLast_concat]
    exact ⟨fun eq => by rw [eq], List.append_cancel_right⟩

theorem newFilePatch_iff (path : RelPath) (content : Text) :
    NewFilePatch path content (newFileSection path content) ↔ content ≠ [] ∧ ¬HasCrlf content := by
  constructor
  · rintro ⟨added', marked, some, single, patch, content'⟩
    have hunk := List.append_cancel_left patch
    rw [List.append_assoc, ← flatten_hunkLines] at hunk
    have nonempty : content ≠ [] := by
      rintro rfl
      have first : (newFileSpan added'.length).head? = Option.some '@' := by
        rw [newFileSpan]
        split <;> rfl
      have heads := congrArg List.head? hunk
      rw [List.head?_append, first] at heads
      cases heads
    rw [newFileHunk_eq nonempty, ← List.flatten_cons, ← List.flatten_cons] at hunk
    have spans (count : Nat) {lines : List Text} (single : ∀ line ∈ lines, '\n' ∉ line)
        (marked : Bool) : splitInclusive (newFileSpan count :: hunkLines lines marked).flatten =
          newFileSpan count :: hunkLines lines marked :=
      splitInclusive_flatten (List.forall_mem_cons.mpr
        ⟨isLine_newFileSpan count, isLine_hunkLines single marked⟩)
    have pieces := congrArg splitInclusive hunk
    rw [spans _ (fun _ mem => newline_notMem_lines mem), spans _ single] at pieces
    obtain ⟨rfl, rfl⟩ := hunkLines_inj (List.cons.inj pieces).2
    exact ⟨nonempty, (added_lines nonempty).mp content'⟩
  · rintro ⟨nonempty, plain⟩
    refine ⟨lines content, content.getLast? ≠ some '\n', ?_, fun _ mem => newline_notMem_lines mem, ?_,
      (added_lines nonempty).mpr plain⟩
    · rw [lines_eq, ne_eq, List.map_eq_nil_iff, Pieces.cut_eq_nil]
      exact nonempty
    · rw [newFileSection, newFileHunk_eq nonempty, flatten_hunkLines, List.append_assoc (newFileSpan _)]

structure UntrackedFile where
  path : RelPath
  content : Text
  named : path.text ≠ []
  visible : Char.ofNat 0 ∉ path.text

/-- `git` lists these files below the paths and they are there and can be read. -/
structure ListsUntracked (repo : Repository) (disk : Disk) (paths : List RelPath)
    (files : List UntrackedFile) : Prop where
  listed : repo.gitLsFiles ((paths.map RelPath.text).filter (· ≠ [])) =
    .ok (files.flatMap fun file => file.path.text ++ [Char.ofNat 0])
  regular : ∀ file ∈ files, ∃ modifiedNs,
    disk.node file.path.components = some (.file (Text.bytes file.content) modifiedNs)
  readable : ∀ file ∈ files, repo.faults file.path.components = none

theorem untrackedPaths_listed (files : List UntrackedFile) :
    Repository.untrackedPaths (files.flatMap fun file => file.path.text ++ [Char.ofNat 0]) =
      files.map UntrackedFile.path := by
  have texts := @splitOn_terminated (Char.ofNat 0) (files.map fun file => file.path.text)
    (List.forall_mem_map.mpr fun file _ => file.visible)
    (List.forall_mem_map.mpr fun file _ => file.named)
  rw [List.flatMap_map] at texts
  rw [Repository.untrackedPaths, texts, List.filterMap_map, ← List.filterMap_eq_map]
  refine List.filterMap_congr fun file _ => ?_
  simp only [Function.comp_apply, file.path.normal, if_neg file.named, RelPath.new_self]

namespace Repository

variable {repo : Repository} {disk : Disk} {budget : Budget}

theorem utf8Count_le_newFileHunk (content : Text) :
    utf8Count content ≤ utf8Count (newFileHunk content false) := by
  have lines_le : utf8Count content ≤ utf8Count ((lines content).flatMap addedLine) := by
    induction content using text_induction with
    | nil => exact Nat.zero_le _
    | last body single nonempty =>
      rw [lines_unmarked single nonempty, List.flatMap_singleton, addedLine, List.cons_append,
        utf8Count, utf8Count_append]
      omega
    | piece body rest single ih =>
      have shorter : utf8Count body ≤ utf8Count (lineBody (body ++ ['\n'])) + 1 := by
        rw [lineBody_lf]
        split
        · next last =>
          obtain ⟨before, rfl⟩ := List.getLast?_eq_some_iff.mp last
          rw [List.dropLast_concat, utf8Count_append]
          exact Nat.le_refl _
        · exact Nat.le_succ _
      have plus : utf8Count ['+'] = 1 := by decide
      have newline : utf8Count ['\n'] = 1 := by decide
      have line : addedLine (lineBody (body ++ ['\n'])) =
          ['+'] ++ lineBody (body ++ ['\n']) ++ ['\n'] := rfl
      have whole : body ++ '\n' :: rest = body ++ ['\n'] ++ rest := by
        rw [List.append_assoc]
        rfl
      rw [lines_body_append single, List.flatMap_cons, line, whole]
      simp only [utf8Count_append, plus, newline]
      omega
  by_cases empty : content = []
  · rw [empty]
    exact Nat.zero_le _
  · rw [newFileHunk_eq empty, flatten_hunkLines, utf8Count_append, utf8Count_append]
    omega

theorem untrackedContent_whole {path : RelPath} {content : Text} {modifiedNs : Nat}
    (regular : disk.node path.components = some (.file (Text.bytes content) modifiedNs))
    (readable : repo.faults path.components = none)
    (room : budget.holds (utf8Count content) = true) :
    repo.untrackedContent disk path budget = some ("100644", content, false) := by
  have read : repo.readPrefix disk path budget = some (Text.bytes content, false) := by
    rw [readPrefix, regular, readable]
    cases budget with
    | none => rfl
    | some maxBytes =>
      have all : (Text.bytes content).size ≤ maxBytes := by
        rw [size_bytes]
        exact of_decide_eq_true room
      have same : (Text.bytes content).extract 0 maxBytes = Text.bytes content := by
        refine ByteArray.ext ?_
        rw [ByteArray.data_extract]
        exact Array.extract_eq_self_of_le all
      simp only [Option.elim_some, same, decide_eq_false (Nat.not_lt.mpr all)]
  rw [untrackedContent, readLink, regular]
  simp only [read, Option.bind_some, utf8Prefix, fromUtf8_bytes, Option.map_some]

theorem untrackedPatches_whole {files : List UntrackedFile} (diff : Text)
    (regular : ∀ file ∈ files, ∃ modifiedNs,
      disk.node file.path.components = some (.file (Text.bytes file.content) modifiedNs))
    (readable : ∀ file ∈ files, repo.faults file.path.components = none)
    (fits : budget.holds (utf8Count (diff ++
      files.flatMap fun file => newFileSection file.path file.content)) = true) :
    repo.untrackedPatches disk budget (files.map UntrackedFile.path) diff =
      diff ++ files.flatMap fun file => newFileSection file.path file.content := by
  induction files generalizing diff with
  | nil => exact (List.append_nil diff).symm
  | cons file rest ih =>
    obtain ⟨⟨modifiedNs, here⟩, later⟩ := List.forall_mem_cons.mp regular
    obtain ⟨open', readable'⟩ := List.forall_mem_cons.mp readable
    have within := utf8Count_le_newFileHunk file.content
    have room : (budget.less (utf8Count diff + utf8Count (newFileHeader file.path "100644"))).holds
        (utf8Count file.content) = true := by
      cases budget with
      | none => rfl
      | some maxChars =>
        refine decide_eq_true ?_
        have total := of_decide_eq_true fits
        rw [List.flatMap_cons, newFileSection, utf8Count_append, utf8Count_append,
          utf8Count_append] at total
        have left : utf8Count file.content ≤
            maxChars - (utf8Count diff + utf8Count (newFileHeader file.path "100644")) := by omega
        exact left
    rw [List.flatMap_cons, ← List.append_assoc] at fits ⊢
    have far : budget.holds (utf8Count (diff ++ newFileSection file.path file.content)) = true := by
      cases budget with
      | none => rfl
      | some maxChars =>
        refine decide_eq_true ?_
        have total := of_decide_eq_true fits
        rw [utf8Count_append] at total
        omega
    rw [List.map_cons, untrackedPatches, untrackedContent_whole here open' room]
    rw [newFileSection, ← List.append_assoc] at far
    simp only [far, Bool.not_true, Bool.or_false, Bool.false_eq_true, if_false]
    rw [List.append_assoc diff]
    exact ih _ later readable' fits

theorem untrackedDiff_eq {paths : List RelPath} {files : List UntrackedFile}
    (lists : ListsUntracked repo disk paths files) (budget : Budget) :
    repo.untrackedDiff disk paths budget =
      .ok (repo.untrackedPatches disk budget (files.map UntrackedFile.path) []) := by
  rw [untrackedDiff, lists.listed, ← untrackedPaths_listed]
  rfl

end Repository

/-- The text is within the budget, and where the sections of the files fit they are the text,
each a patch that makes its file. -/
def ExactAndBounded (repo : Repository) (disk : Disk) (paths : List RelPath)
    (files : List UntrackedFile) : Prop :=
  ∀ budget : Budget, ∃ text, repo.untrackedDiff disk paths budget = .ok text ∧
    budget.holds (utf8Count text) = true ∧
    (budget.holds (utf8Count (files.flatMap fun file => newFileSection file.path file.content)) →
      text = (files.flatMap fun file => newFileSection file.path file.content) ∧
      ∀ file ∈ files, NewFilePatch file.path file.content (newFileSection file.path file.content))

theorem not_exactAndBounded_of {repo : Repository} {disk : Disk} {paths : List RelPath}
    {files : List UntrackedFile} {file : UntrackedFile} (mem : file ∈ files)
    (unlike : ¬(file.content ≠ [] ∧ ¬HasCrlf file.content)) :
    ¬ExactAndBounded repo disk paths files := by
  intro exact'
  obtain ⟨_, -, -, whole⟩ := exact' none
  exact unlike ((newFilePatch_iff _ _).mp ((whole rfl).2 file mem))

/-- The patch of untracked files is always within its budget, and exact just where no file is
empty or has a line that ends in `\r\n`. -/
theorem exactAndBounded_iff {repo : Repository} {disk : Disk} {paths : List RelPath}
    {files : List UntrackedFile} (lists : ListsUntracked repo disk paths files) :
    (∀ budget : Budget, ∃ text, repo.untrackedDiff disk paths budget = .ok text ∧
      budget.holds (utf8Count text) = true) ∧
    (ExactAndBounded repo disk paths files ↔
      ∀ file ∈ files, file.content ≠ [] ∧ ¬HasCrlf file.content) := by
  have bounded (budget : Budget) : budget.holds (utf8Count
      (repo.untrackedPatches disk budget (files.map UntrackedFile.path) [])) = true :=
    Repository.holds_untrackedPatches _ [] (by cases budget <;> rfl)
  refine ⟨fun budget => ⟨_, Repository.untrackedDiff_eq lists budget, bounded budget⟩, ?_, ?_⟩
  · intro exact' file mem
    by_contra unlike
    exact not_exactAndBounded_of mem unlike exact'
  · intro plain budget
    refine ⟨_, Repository.untrackedDiff_eq lists budget, bounded budget, fun fits => ⟨?_, ?_⟩⟩
    · exact Repository.untrackedPatches_whole [] lists.regular lists.readable fits
    · exact fun file mem => (newFilePatch_iff _ _).mpr (plain file mem)

namespace Sample

def untracked (content : Text) : UntrackedFile where
  path := ⟨['a'], by decide, by decide, by decide⟩
  content := content
  named := by decide
  visible := by decide

def worktree (content : Text) : Disk := ⟨AList.singleton [['a']] (.file (Text.bytes content) 0)⟩

def listing : Repository where
  gitDiff _ _ := .ok []
  gitLsFiles _ := .ok ['a', Char.ofNat 0]
  linkTarget _ := []
  faults _ := none

theorem listsUntracked (content : Text) :
    ListsUntracked listing (worktree content) [] [untracked content] where
  listed := rfl
  regular := List.forall_mem_singleton.mpr ⟨0, rfl⟩
  readable := List.forall_mem_singleton.mpr rfl

end Sample

theorem exactAndBounded_line :
    ExactAndBounded Sample.listing (Sample.worktree "x\n".toList) [] [Sample.untracked "x\n".toList] := by
  refine (exactAndBounded_iff (Sample.listsUntracked _)).2.mpr ?_
  refine List.forall_mem_singleton.mpr ⟨by decide, fun crlf => ?_⟩
  have carriage : '\r' ∉ "x\n".toList := by decide
  exact carriage (crlf.subset List.mem_cons_self)

-- The added line is `x`, without the carriage return.
theorem not_exactAndBounded_crlf : ¬ExactAndBounded Sample.listing
    (Sample.worktree "x\r\n".toList) [] [Sample.untracked "x\r\n".toList] :=
  not_exactAndBounded_of (List.mem_singleton_self _) fun plain => plain.2 ⟨['x'], [], rfl⟩

end CodeWeave
