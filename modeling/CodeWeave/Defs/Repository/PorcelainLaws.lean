import CodeWeave.Defs.Repository.Porcelain
import CodeWeave.Defs.TrimLaws

namespace CodeWeave

structure GitPath where
  text : Text
  nonempty : text ≠ []
  canonical : normalizePathText text = text
  visible : Char.ofNat 0 ∉ text

structure PlainFields (n : Nat) where
  texts : List Text
  length_eq : texts.length = n
  noSpace : ∀ text ∈ texts, ' ' ∉ text
  visible : ∀ text ∈ texts, Char.ofNat 0 ∉ text

structure StatusCode where
  x : Char
  y : Char
  plain : ∀ c ∈ [x, y], c ≠ ' ' ∧ c ≠ Char.ofNat 0

inductive StatusRecord
  | oid (text : Text) (visible : Char.ofNat 0 ∉ text)
  | head (text : Text) (visible : Char.ofNat 0 ∉ text)
  | header (text : Text) (visible : Char.ofNat 0 ∉ text)
      (other : ¬"branch.oid ".toList <+: text ∧ ¬"branch.head ".toList <+: text)
  | ordinary (code : StatusCode) (fields : PlainFields 6) (path : GitPath)
  | renamed (code : StatusCode) (fields : PlainFields 7) (path original : GitPath)
  | unmerged (code : StatusCode) (fields : PlainFields 8) (path : GitPath)
  | untracked (path : GitPath)
  | ignored (path : GitPath)

def changeLine (kind : Char) (code : StatusCode) (fields : PlainFields n) (path : GitPath) : Text :=
  ([kind] :: [code.x, code.y] :: fields.texts).flatMap (· ++ [' ']) ++ path.text

namespace StatusRecord

def printed : StatusRecord → List Text
  | oid text _ => ["# branch.oid ".toList ++ text]
  | head text _ => ["# branch.head ".toList ++ text]
  | header text _ _ => ["# ".toList ++ text]
  | ordinary code fields path => [changeLine '1' code fields path]
  | renamed code fields path original => [changeLine '2' code fields path, original.text]
  | unmerged code fields path => [changeLine 'u' code fields path]
  | untracked path => ["? ".toList ++ path.text]
  | ignored path => ["! ".toList ++ path.text]

@[simp] def dirty : StatusRecord → List Text
  | ordinary _ _ path => [path.text]
  | renamed _ _ path original => [path.text, original.text]
  | unmerged _ _ path => [path.text]
  | untracked path => [path.text]
  | _ => []

@[simp] def staged : StatusRecord → List Text
  | ordinary code _ path => if code.x = '.' then [] else [path.text]
  | renamed code _ path _ => if code.x = '.' then [] else [path.text]
  | unmerged _ _ path => [path.text]
  | _ => []

@[simp] def unstaged : StatusRecord → List Text
  | ordinary code _ path => if code.y = '.' then [] else [path.text]
  | renamed code _ path _ => if code.y = '.' then [] else [path.text]
  | unmerged _ _ path => [path.text]
  | _ => []

@[simp] def untrackedPath : StatusRecord → List Text
  | untracked path => [path.text]
  | _ => []

def oidText : StatusRecord → Option Text
  | oid text _ => if text = "(initial)".toList then none else some text
  | _ => none

def headText : StatusRecord → Option Text
  | head text _ => if text = "(detached)".toList then none else some text
  | _ => none

end StatusRecord

def printedStatus (records : List StatusRecord) : Text :=
  (records.flatMap StatusRecord.printed).flatMap (· ++ [Char.ofNat 0])

theorem GitPath.normalizedPath (path : GitPath) : normalizedPath path.text = some path.text := by
  simp only [CodeWeave.normalizedPath, path.canonical, if_neg path.nonempty]

theorem splitN_fields {fields : List Text} (plain : ∀ field ∈ fields, ' ' ∉ field) (last : Text) :
    splitN ' ' (fields.length + 1) (fields.flatMap (· ++ [' ']) ++ last) = fields ++ [last] := by
  induction fields with
  | nil => rfl
  | cons field rest ih =>
    obtain ⟨here, later⟩ := List.forall_mem_cons.mp plain
    rw [List.length_cons, List.flatMap_cons, List.append_assoc, List.append_assoc,
      List.singleton_append, splitN, splitOnce_append here, List.cons_append, ← ih later]

section

variable {n : Nat} (kind : Char) (code : StatusCode) (fields : PlainFields n) (path : GitPath)

theorem porcelainPath_changeLine (visible : kind ≠ ' ') :
    porcelainPath (changeLine kind code fields path) (n + 3) = some path.text := by
  have plain : ∀ field ∈ [kind] :: [code.x, code.y] :: fields.texts, ' ' ∉ field := by
    refine List.forall_mem_cons.mpr ⟨?_, List.forall_mem_cons.mpr ⟨?_, fields.noSpace⟩⟩
    · exact fun space => visible (List.mem_singleton.mp space).symm
    · exact fun space => (code.plain _ space).1 rfl
  have pieces := splitN_fields plain path.text
  rw [List.length_cons, List.length_cons, fields.length_eq] at pieces
  have length : ([kind] :: [code.x, code.y] :: fields.texts).length = n + 2 := by
    rw [List.length_cons, List.length_cons, fields.length_eq]
  have last : (([kind] :: [code.x, code.y] :: fields.texts) ++ [path.text])[n + 2]? =
      some path.text := by
    rw [← length]
    exact List.getElem?_concat_length
  rw [porcelainPath, changeLine, pieces]
  exact (congrArg (Option.bind · CodeWeave.normalizedPath) last).trans path.normalizedPath

end

namespace StatusParse

theorem not_header {line : Text} {kind : Char} (first : line.head? = some kind)
    (other : kind ≠ '#') : stripPrefix "# branch.oid ".toList line = none ∧
      stripPrefix "# branch.head ".toList line = none :=
  ⟨stripPrefix_eq_none (not_prefix_of_head (d := '#') first rfl other),
    stripPrefix_eq_none (not_prefix_of_head (d := '#') first rfl other)⟩

def add (status : StatusParse) (record : StatusRecord) : StatusParse where
  head := record.oidText.getD status.head
  branch := record.headText.getD status.branch
  dirty := record.dirty.toFinset ∪ status.dirty
  staged := record.staged.toFinset ∪ status.staged
  unstaged := record.unstaged.toFinset ∪ status.unstaged
  untracked := record.untrackedPath.toFinset ∪ status.untracked

theorem records_alone {status next : StatusParse} {line : Text}
    (alone : ∀ behind, status.record line behind = (next, false)) (rest : List Text) :
    status.records false (line :: rest) = next.records false rest := by
  rw [records, alone]

section

variable {n : Nat} (status : StatusParse) (code : StatusCode) (fields : PlainFields n)
  (path : GitPath)

theorem changed_union (c : Char) (paths : Finset Text) :
    (if c ≠ '.' then insert path.text paths else paths) =
      (if c = '.' then [] else [path.text]).toFinset ∪ paths := by
  by_cases dot : c = '.'
  · rw [if_neg (not_not.mpr dot), if_pos dot]
    exact (Finset.empty_union paths).symm
  · rw [if_pos dot, if_neg dot]
    rfl

theorem change_changeLine (kind : Char) (path' : Text) :
    status.change (changeLine kind code fields path) path' = { status with
      dirty := insert path' status.dirty
      staged := if code.x ≠ '.' then insert path' status.staged else status.staged
      unstaged := if code.y ≠ '.' then insert path' status.unstaged else status.unstaged } := rfl

end

theorem records_printed (status : StatusParse) (record : StatusRecord) (rest : List Text) :
    status.records false (record.printed ++ rest) = (status.add record).records false rest := by
  cases record with
  | oid text visible =>
    refine records_alone (fun behind => ?_) rest
    simp only [StatusParse.record, stripPrefix_append]
    by_cases initial : text = "(initial)".toList
    · rw [if_neg (not_not.mpr initial)]
      have told : (StatusRecord.oid text visible).oidText = none := if_pos initial
      simp [add, told, StatusRecord.headText]
    · rw [if_pos initial]
      have told : (StatusRecord.oid text visible).oidText = some text := if_neg initial
      simp [add, told, StatusRecord.headText]
  | head text visible =>
    refine records_alone (fun behind => ?_) rest
    have oid : stripPrefix "# branch.oid ".toList ("# branch.head ".toList ++ text) = none := rfl
    simp only [StatusParse.record, oid, stripPrefix_append]
    by_cases detached : text = "(detached)".toList
    · rw [if_neg (not_not.mpr detached)]
      have told : (StatusRecord.head text visible).headText = none := if_pos detached
      simp [add, told, StatusRecord.oidText]
    · rw [if_pos detached]
      have told : (StatusRecord.head text visible).headText = some text := if_neg detached
      simp [add, told, StatusRecord.oidText]
  | header text visible other =>
    refine records_alone (fun behind => ?_) rest
    have first : ("# ".toList ++ text).head? = some '#' := rfl
    have oid : stripPrefix "# branch.oid ".toList ("# ".toList ++ text) = none :=
      stripPrefix_eq_none fun start => other.1 (List.prefix_append_right_inj "# ".toList |>.mp start)
    have head : stripPrefix "# branch.head ".toList ("# ".toList ++ text) = none :=
      stripPrefix_eq_none fun start => other.2 (List.prefix_append_right_inj "# ".toList |>.mp start)
    simp only [StatusParse.record, oid, head, first]
    simp [add, StatusRecord.oidText, StatusRecord.headText]
  | ordinary code fields path =>
    refine records_alone (fun behind => ?_) rest
    have first : (changeLine '1' code fields path).head? = some '1' := rfl
    obtain ⟨oid, head⟩ := not_header first (by decide)
    simp only [StatusParse.record, oid, head, first, if_true,
      porcelainPath_changeLine '1' code fields path (by decide), Option.elim_some,
      change_changeLine, changed_union]
    simp [add, StatusRecord.oidText, StatusRecord.headText]
  | renamed code fields path original =>
    have first : (changeLine '2' code fields path).head? = some '2' := rfl
    obtain ⟨oid, head⟩ := not_header first (by decide)
    have other : ¬some '2' = some '1' := by decide
    have read : status.record (changeLine '2' code fields path) (some original.text) =
        (status.add (.renamed code fields path original), true) := by
      simp only [StatusParse.record, oid, head, first, if_neg other, if_true,
        porcelainPath_changeLine '2' code fields path (by decide), Option.elim_some,
        Option.bind_some, original.normalizedPath, change_changeLine, changed_union]
      simp [add, StatusRecord.oidText, StatusRecord.headText, Finset.insert_comm original.text]
    show status.records false (changeLine '2' code fields path :: original.text :: rest) = _
    simp only [records, List.head?_cons, read]
  | unmerged code fields path =>
    refine records_alone (fun behind => ?_) rest
    have first : (changeLine 'u' code fields path).head? = some 'u' := rfl
    obtain ⟨oid, head⟩ := not_header first (by decide)
    have other : ¬some 'u' = some '1' ∧ ¬some 'u' = some '2' := by decide
    simp only [StatusParse.record, oid, head, first, if_neg other.1, if_neg other.2, if_true,
      porcelainPath_changeLine 'u' code fields path (by decide), Option.elim_some]
    simp [add, unmerge, StatusRecord.oidText, StatusRecord.headText]
  | untracked path =>
    refine records_alone (fun behind => ?_) rest
    have first : ("? ".toList ++ path.text).head? = some '?' := rfl
    obtain ⟨oid, head⟩ := not_header first (by decide)
    have other : ¬some '?' = some '1' ∧ ¬some '?' = some '2' ∧ ¬some '?' = some 'u' := by decide
    simp only [StatusParse.record, oid, head, first, if_neg other.1, if_neg other.2.1,
      if_neg other.2.2, if_true, stripPrefix_append, Option.bind_some, path.normalizedPath,
      Option.elim_some]
    simp [add, untrack, StatusRecord.oidText, StatusRecord.headText]
  | ignored path =>
    refine records_alone (fun behind => ?_) rest
    have first : ("! ".toList ++ path.text).head? = some '!' := rfl
    obtain ⟨oid, head⟩ := not_header first (by decide)
    simp only [StatusParse.record, oid, head, first]
    simp [add, StatusRecord.oidText, StatusRecord.headText]

theorem records_flatMap_printed (status : StatusParse) (printed : List StatusRecord) :
    status.records false (printed.flatMap StatusRecord.printed) = printed.foldl add status := by
  induction printed generalizing status with
  | nil => rfl
  | cons record rest ih => rw [List.flatMap_cons, records_printed, ih, List.foldl_cons]

theorem mem_foldl_add {set : StatusParse → Finset Text} {told : StatusRecord → List Text}
    (adds : ∀ status record, set (add status record) = (told record).toFinset ∪ set status)
    (records : List StatusRecord) (status : StatusParse) (text : Text) :
    text ∈ set (records.foldl add status) ↔
      text ∈ set status ∨ ∃ record ∈ records, text ∈ told record := by
  induction records generalizing status with
  | nil => simp
  | cons record rest ih =>
    rw [List.foldl_cons, ih, adds, Finset.mem_union, List.mem_toFinset, List.exists_mem_cons_iff,
      or_comm (a := text ∈ told record), or_assoc]

theorem foldl_add_text {text : StatusParse → Text} {told : StatusRecord → Option Text}
    (sets : ∀ status record, text (add status record) = (told record).getD (text status))
    (records : List StatusRecord) (status : StatusParse) :
    text (records.foldl add status) = ((records.filterMap told).getLast?).getD (text status) := by
  induction records using List.reverseRecOn with
  | nil => rfl
  | append_singleton records record ih =>
    rw [List.foldl_append, List.filterMap_append, List.foldl_cons, List.foldl_nil, sets, ih]
    cases said : told record with
    | none => rw [List.filterMap_cons_none said, List.filterMap_nil, List.append_nil]; rfl
    | some text => rw [List.filterMap_cons_some said, List.filterMap_nil, List.getLast?_concat]; rfl

end StatusParse

theorem visible_changeLine {n : Nat} {kind : Char} (plain : kind ≠ Char.ofNat 0) (code : StatusCode)
    (fields : PlainFields n) (path : GitPath) :
    Char.ofNat 0 ∉ changeLine kind code fields path := by
  have apart : ∀ field ∈ [kind] :: [code.x, code.y] :: fields.texts, Char.ofNat 0 ∉ field := by
    refine List.forall_mem_cons.mpr ⟨?_, List.forall_mem_cons.mpr ⟨?_, fields.visible⟩⟩
    · exact fun zero => plain (List.mem_singleton.mp zero).symm
    · exact fun zero => (code.plain _ zero).2 rfl
  rw [changeLine, List.mem_append, not_or]
  refine ⟨fun mem => ?_, path.visible⟩
  obtain ⟨field, among, here⟩ := List.mem_flatMap.mp mem
  cases List.mem_append.mp here with
  | inl inside => exact apart field among inside
  | inr space => cases List.mem_singleton.mp space

theorem StatusRecord.visible_printed (record : StatusRecord) :
    ∀ line ∈ record.printed, Char.ofNat 0 ∉ line ∧ line ≠ [] := by
  have behind {start text : Text} (plain : Char.ofNat 0 ∉ start) (nonempty : start ≠ [])
      (visible : Char.ofNat 0 ∉ text) : Char.ofNat 0 ∉ start ++ text ∧ start ++ text ≠ [] := by
    rw [List.mem_append, not_or]
    exact ⟨⟨plain, visible⟩, List.append_ne_nil_of_left_ne_nil nonempty _⟩
  cases record with
  | oid text visible => exact List.forall_mem_singleton.mpr (behind (by decide) (by decide) visible)
  | head text visible => exact List.forall_mem_singleton.mpr (behind (by decide) (by decide) visible)
  | header text visible other =>
    exact List.forall_mem_singleton.mpr (behind (by decide) (by decide) visible)
  | ordinary code fields path =>
    exact List.forall_mem_singleton.mpr
      ⟨visible_changeLine (by decide) code fields path, List.cons_ne_nil _ _⟩
  | renamed code fields path original =>
    exact List.forall_mem_cons.mpr ⟨⟨visible_changeLine (by decide) code fields path,
      List.cons_ne_nil _ _⟩, List.forall_mem_singleton.mpr ⟨original.visible, original.nonempty⟩⟩
  | unmerged code fields path =>
    exact List.forall_mem_singleton.mpr
      ⟨visible_changeLine (by decide) code fields path, List.cons_ne_nil _ _⟩
  | untracked path =>
    exact List.forall_mem_singleton.mpr (behind (by decide) (by decide) path.visible)
  | ignored path =>
    exact List.forall_mem_singleton.mpr (behind (by decide) (by decide) path.visible)

theorem parsePorcelainV2_eq (records : List StatusRecord) :
    parsePorcelainV2 (printedStatus records) =
      (records.foldl StatusParse.add .start).repoStatus := by
  have plain : ∀ line ∈ records.flatMap StatusRecord.printed, Char.ofNat 0 ∉ line ∧ line ≠ [] := by
    intro line mem
    obtain ⟨record, -, among⟩ := List.mem_flatMap.mp mem
    exact record.visible_printed line among
  rw [parsePorcelainV2, printedStatus, splitOn_terminated (fun line mem => (plain line mem).1)
    fun line mem => (plain line mem).2, StatusParse.records_flatMap_printed]

def SortedSet (texts : List Text) (among : Text → Prop) : Prop :=
  texts.Pairwise (· < ·) ∧ ∀ text, text ∈ texts ↔ among text

theorem sortedSet_sort (texts : Finset Text) {among : Text → Prop}
    (same : ∀ text, text ∈ texts ↔ among text) : SortedSet texts.sort among :=
  ⟨texts.sortedLT_sort.pairwise, fun text => (Finset.mem_sort _).trans (same text)⟩

/-- A printed status is parsed as what its records say. -/
theorem parsePorcelainV2_printed (records : List StatusRecord) :
    let status := parsePorcelainV2 (printedStatus records)
    status.isGit = true ∧
    status.head = ((records.filterMap StatusRecord.oidText).getLast?).getD [] ∧
    status.branch = ((records.filterMap StatusRecord.headText).getLast?).getD [] ∧
    SortedSet status.dirtyFiles (fun path => ∃ record ∈ records, path ∈ record.dirty) ∧
    SortedSet status.stagedFiles (fun path => ∃ record ∈ records, path ∈ record.staged) ∧
    SortedSet status.unstagedFiles (fun path => ∃ record ∈ records, path ∈ record.unstaged) ∧
    SortedSet status.untrackedFiles (fun path => ∃ record ∈ records, path ∈ record.untrackedPath) ∧
    SortedSet status.partiallyStagedFiles fun path =>
      path ∈ status.stagedFiles ∧ path ∈ status.unstagedFiles := by
  intro status
  have parsed : status = (records.foldl StatusParse.add .start).repoStatus :=
    parsePorcelainV2_eq records
  have set {set : StatusParse → Finset Text} {told : StatusRecord → List Text}
      (adds : ∀ status record, set (status.add record) = (told record).toFinset ∪ set status)
      (empty : set .start = ∅) (text : Text) : text ∈ set (records.foldl StatusParse.add .start) ↔
        ∃ record ∈ records, text ∈ told record := by
    rw [StatusParse.mem_foldl_add adds, empty]
    exact or_iff_right (Finset.notMem_empty text)
  rw [parsed]
  refine ⟨rfl, @StatusParse.foldl_add_text StatusParse.head _ (fun _ _ => rfl) _ _,
    @StatusParse.foldl_add_text StatusParse.branch _ (fun _ _ => rfl) _ _,
    sortedSet_sort _ (set (fun _ _ => rfl) rfl),
    sortedSet_sort _ (set (fun _ _ => rfl) rfl), sortedSet_sort _ (set (fun _ _ => rfl) rfl),
    sortedSet_sort _ (set (fun _ _ => rfl) rfl), sortedSet_sort _ fun text => ?_⟩
  rw [Finset.mem_inter, StatusParse.repoStatus, Finset.mem_sort, Finset.mem_sort]

end CodeWeave
