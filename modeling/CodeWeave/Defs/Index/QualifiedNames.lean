import CodeWeave.Defs.Index.Representation

namespace CodeWeave

section

variable {text needle : Text} {index : Nat}

theorem mem_reverse_range {size : Nat} : index ∈ (List.range size).reverse ↔ index < size := by
  rw [List.mem_reverse, List.mem_range]

theorem lt_of_starts_drop (nonempty : needle ≠ []) (starts : needle <+: text.drop index) :
    index < text.length := by
  by_contra beyond
  rw [List.drop_eq_nil_of_le (Nat.le_of_not_lt beyond)] at starts
  exact nonempty (List.prefix_nil.mp starts)

theorem last_of_rfind (nonempty : needle ≠ []) (found : rfind text needle = some index) :
    needle <+: text.drop index ∧ ∀ later, index < later → ¬needle <+: text.drop later := by
  obtain ⟨starts, before, after, split, none_before⟩ := List.find?_eq_some_iff_append.mp found
  refine ⟨of_decide_eq_true starts, fun later below starts => ?_⟩
  have decreasing : (before ++ index :: after).Pairwise (· > ·) := by
    rw [← split, List.pairwise_reverse]
    exact List.pairwise_lt_range
  have mem : later ∈ before ++ index :: after := by
    rw [← split, mem_reverse_range]
    exact Nat.lt_succ_of_lt (lt_of_starts_drop nonempty starts)
  rcases List.mem_append.mp mem with mem | mem
  · have rejected := none_before later mem
    rw [decide_eq_true starts] at rejected
    cases rejected
  · rcases List.mem_cons.mp mem with rfl | mem
    · exact Nat.lt_irrefl _ below
    · have above := List.rel_of_pairwise_cons (List.pairwise_append.mp decreasing).2.1 mem
      exact Nat.lt_asymm below above

theorem rfind_eq_some (nonempty : needle ≠ []) : rfind text needle = some index ↔
    needle <+: text.drop index ∧ ∀ later, index < later → ¬needle <+: text.drop later := by
  refine ⟨last_of_rfind nonempty, fun ⟨starts, last⟩ => ?_⟩
  cases found : rfind text needle with
  | none =>
    have within := Nat.lt_succ_of_lt (lt_of_starts_drop nonempty starts)
    have rejected := List.find?_eq_none.mp found index (mem_reverse_range.mpr within)
    exact absurd (decide_eq_true starts) rejected
  | some other =>
    obtain ⟨starts', last'⟩ := last_of_rfind nonempty found
    rcases Nat.lt_trichotomy index other with before | same | after
    · exact absurd starts' (last other before)
    · rw [same]
    · exact absurd starts (last' index after)

theorem rfind_eq_none (nonempty : needle ≠ []) :
    rfind text needle = none ↔ ∀ index, ¬needle <+: text.drop index := by
  rw [rfind, List.find?_eq_none]
  constructor
  · intro rejected index starts
    have within := Nat.lt_succ_of_lt (lt_of_starts_drop nonempty starts)
    exact rejected index (mem_reverse_range.mpr within) (decide_eq_true starts)
  · exact fun rejected index _ accepted => rejected index (of_decide_eq_true accepted)

end

inductive Separator
  | dot
  | colons
  deriving DecidableEq

namespace Separator

def text : Separator → Text
  | dot => ['.']
  | colons => [':', ':']

def Last (separator : Separator) (leaf : Text) : Prop :=
  ∀ other : Separator, ¬other.text <:+: separator.text.tail ++ leaf

structure Splits (separator : Separator) (owner leaf : Text) : Prop where
  owned : owner ≠ []
  named : leaf ≠ []
  last : separator.Last leaf

theorem text_ne_nil : ∀ separator : Separator, separator.text ≠ []
  | dot => List.cons_ne_nil _ _
  | colons => List.cons_ne_nil _ _

theorem length_text_pos (separator : Separator) : 0 < separator.text.length :=
  List.length_pos_of_ne_nil separator.text_ne_nil

theorem eq_of_starts {first second : Separator} {text : Text} (starts : first.text <+: text)
    (starts' : second.text <+: text) : first = second := by
  obtain ⟨rest, rfl⟩ := starts
  obtain ⟨rest', same⟩ := starts'
  cases first <;> cases second <;> simp [Separator.text] at same ⊢

theorem eq_of_append {first second : Separator} {owner owner' : Text}
    (same : owner ++ first.text = owner' ++ second.text) : owner = owner' ∧ first = second := by
  have ends := congrArg List.getLast? same
  have separators : first = second := by
    cases first <;> cases second <;> simp [Separator.text] at ends ⊢
  subst separators
  exact ⟨List.append_cancel_right same, rfl⟩

structure LastAt (separator : Separator) (name : Text) (index : Nat) : Prop where
  starts : separator.text <+: name.drop index
  none_later : ∀ (other : Separator) (later : Nat), index < later →
    ¬other.text <+: name.drop later

variable {separator : Separator} {name owner leaf : Text} {index : Nat}

theorem LastAt.rfind (last : separator.LastAt name index) :
    rfind name separator.text = some index :=
  (rfind_eq_some separator.text_ne_nil).mpr ⟨last.starts, last.none_later separator⟩

theorem LastAt.before {other : Separator} {place : Nat} (last : separator.LastAt name index)
    (differs : other ≠ separator) (found : CodeWeave.rfind name other.text = some place) :
    place < index := by
  have starts := ((rfind_eq_some other.text_ne_nil).mp found).1
  rcases Nat.lt_trichotomy place index with before | same | after
  · exact before
  · rw [same] at starts
    exact absurd (eq_of_starts starts last.starts) differs
  · exact absurd starts (last.none_later other place after)

theorem lastAt_append_iff :
    separator.LastAt (owner ++ separator.text ++ leaf) owner.length ↔ separator.Last leaf := by
  have after (later : Nat) : (owner ++ separator.text ++ leaf).drop (owner.length + (later + 1)) =
      (separator.text.tail ++ leaf).drop later := by
    rw [List.append_assoc, List.drop_length_add_append]
    cases separator <;> rfl
  constructor
  · intro last other within
    obtain ⟨before, rest, same⟩ := within
    refine last.none_later other (owner.length + (before.length + 1)) (by omega) ?_
    rw [after, ← same, List.append_assoc, List.drop_left]
    exact List.prefix_append ..
  · intro last
    refine ⟨?_, fun other later below starts => last other ?_⟩
    · rw [List.append_assoc, List.drop_left]
      exact List.prefix_append ..
    · obtain ⟨more, rfl⟩ := Nat.exists_eq_add_of_lt below
      rw [Nat.add_assoc, after] at starts
      exact starts.isInfix.trans (List.drop_suffix ..).isInfix

theorem lastAt_of_rfind (found : CodeWeave.rfind name separator.text = some index)
    (before : ∀ (other : Separator) (place : Nat), other ≠ separator →
      CodeWeave.rfind name other.text = some place → place < index) :
    separator.LastAt name index := by
  obtain ⟨starts, last⟩ := (rfind_eq_some separator.text_ne_nil).mp found
  refine ⟨starts, fun other later below starts' => ?_⟩
  by_cases same : other = separator
  · rw [same] at starts'
    exact last later below starts'
  · cases place : CodeWeave.rfind name other.text with
    | none => exact (rfind_eq_none other.text_ne_nil).mp place later starts'
    | some place' =>
      have last' := ((rfind_eq_some other.text_ne_nil).mp place).2
      exact last' later (Nat.lt_trans (before other place' same place) below) starts'

theorem exists_lastAt (name : Text) :
    (∃ separator index, LastAt separator name index) ∨
      ∀ separator : Separator, CodeWeave.rfind name separator.text = none := by
  cases atDot : CodeWeave.rfind name dot.text with
  | none =>
    cases atColons : CodeWeave.rfind name colons.text with
    | none => exact .inr fun separator => by cases separator <;> assumption
    | some place =>
      refine .inl ⟨colons, place, lastAt_of_rfind atColons fun other before differs found => ?_⟩
      cases other with
      | dot => rw [atDot] at found; cases found
      | colons => exact absurd rfl differs
  | some index =>
    cases atColons : CodeWeave.rfind name colons.text with
    | none =>
      refine .inl ⟨dot, index, lastAt_of_rfind atDot fun other before differs found => ?_⟩
      cases other with
      | dot => exact absurd rfl differs
      | colons => rw [atColons] at found; cases found
    | some place =>
      have startsDot := ((rfind_eq_some dot.text_ne_nil).mp atDot).1
      have startsColons := ((rfind_eq_some colons.text_ne_nil).mp atColons).1
      rcases Nat.lt_trichotomy index place with below | same | above
      · refine .inl ⟨colons, place, lastAt_of_rfind atColons fun other before differs found => ?_⟩
        cases other with
        | dot => rw [atDot] at found; cases found; exact below
        | colons => exact absurd rfl differs
      · rw [same] at startsDot
        cases eq_of_starts startsDot startsColons
      · refine .inl ⟨dot, index, lastAt_of_rfind atDot fun other before differs found => ?_⟩
        cases other with
        | dot => exact absurd rfl differs
        | colons => rw [atColons] at found; cases found; exact above

end Separator

theorem qualifiedSymbolParts_of_lastAt {separator : Separator} {name : Text} {index : Nat}
    (last : separator.LastAt name index) :
    qualifiedSymbolParts name =
      if name.take index ≠ [] ∧ name.drop (index + separator.text.length) ≠ [] then
        some (name.take index, name.drop (index + separator.text.length)) else none := by
  cases separator with
  | dot =>
    have found : rfind name ['.'] = some index := last.rfind
    cases other : rfind name [':', ':'] with
    | none => simp only [qualifiedSymbolParts, found, other]; rfl
    | some place =>
      have differs : Separator.colons ≠ .dot := by decide
      have before := last.before differs other
      simp only [qualifiedSymbolParts, found, other, Option.map_some, gt_iff_lt, before, if_true]
      rfl
  | colons =>
    have found : rfind name [':', ':'] = some index := last.rfind
    cases other : rfind name ['.'] with
    | none => simp only [qualifiedSymbolParts, found, other]; rfl
    | some place =>
      have differs : Separator.dot ≠ .colons := by decide
      have before := last.before differs other
      simp only [qualifiedSymbolParts, found, other, Option.map_some, gt_iff_lt,
        Nat.not_lt_of_lt before, if_false]
      rfl

theorem qualifiedSymbolParts_eq_some {name owner leaf : Text} :
    qualifiedSymbolParts name = some (owner, leaf) ↔
      ∃ separator : Separator, separator.Splits owner leaf ∧
        name = owner ++ separator.text ++ leaf := by
  constructor
  · intro parts
    rcases Separator.exists_lastAt name with ⟨separator, index, last⟩ | absent
    · rw [qualifiedSymbolParts_of_lastAt last] at parts
      split at parts
      · next both =>
        cases parts
        obtain ⟨rest, at_index⟩ := last.starts
        have leaf : name.drop (index + separator.text.length) = rest := by
          rw [← List.drop_drop, ← at_index, List.drop_left]
        have whole : name = name.take index ++ separator.text ++ rest := by
          rw [List.append_assoc, at_index, List.take_append_drop]
        have within : (name.take index).length = index :=
          List.length_take_of_le (Nat.le_of_lt
            (lt_of_starts_drop separator.text_ne_nil last.starts))
        have lastAt : separator.LastAt (name.take index ++ separator.text ++ rest)
            (name.take index).length := by
          rw [within, ← whole]
          exact last
        rw [leaf] at both ⊢
        exact ⟨separator, ⟨both.1, both.2, Separator.lastAt_append_iff.mp lastAt⟩, whole⟩
      · cases parts
    · simp only [qualifiedSymbolParts, show rfind name ['.'] = none from absent .dot,
        show rfind name [':', ':'] = none from absent .colons] at parts
      cases parts
  · rintro ⟨separator, splits, rfl⟩
    have last : separator.LastAt (owner ++ separator.text ++ leaf) owner.length :=
      Separator.lastAt_append_iff.mpr splits.last
    rw [qualifiedSymbolParts_of_lastAt last, ← List.length_append, List.drop_left,
      List.append_assoc, List.take_left, if_pos ⟨splits.owned, splits.named⟩]

def Qualified (name : Text) : Prop :=
  ∃ (separator : Separator) (owner leaf : Text), separator.Splits owner leaf ∧
    name = owner ++ separator.text ++ leaf

theorem qualifiedSymbolParts_eq_none {name : Text} :
    qualifiedSymbolParts name = none ↔ ¬Qualified name := by
  constructor
  · rintro absent ⟨separator, owner, leaf, splits, same⟩
    rw [qualifiedSymbolParts_eq_some.mpr ⟨separator, splits, same⟩] at absent
    cases absent
  · intro unqualified
    cases parts : qualifiedSymbolParts name with
    | none => rfl
    | some split =>
      obtain ⟨separator, splits, same⟩ := qualifiedSymbolParts_eq_some.mp parts
      exact absurd ⟨separator, _, _, splits, same⟩ unqualified

def leafName (request : Text) : Text := ((qualifiedSymbolParts request).map Prod.snd).getD request

theorem leafName_eq_self {request : Text} : leafName request = request ↔ ¬Qualified request := by
  rw [leafName, ← qualifiedSymbolParts_eq_none]
  cases parts : qualifiedSymbolParts request with
  | none => exact iff_of_true rfl rfl
  | some split =>
    obtain ⟨owner, leaf⟩ := split
    obtain ⟨separator, -, rfl⟩ := qualifiedSymbolParts_eq_some.mp parts
    refine iff_of_false (fun same => ?_) (fun absent => by cases absent)
    have lengths := congrArg List.length (show leaf = owner ++ separator.text ++ leaf from same)
    have positive := separator.length_text_pos
    simp only [List.length_append] at lengths
    omega

theorem leafName_append {separator : Separator} {owner leaf : Text} :
    leafName (owner ++ separator.text ++ leaf) = leaf ↔ separator.Splits owner leaf := by
  constructor
  · intro own
    rw [leafName] at own
    cases parts : qualifiedSymbolParts (owner ++ separator.text ++ leaf) with
    | none =>
      rw [parts] at own
      have lengths := congrArg List.length
        (show owner ++ separator.text ++ leaf = leaf from own)
      have positive := separator.length_text_pos
      simp only [List.length_append] at lengths
      omega
    | some split =>
      obtain ⟨owner', leaf'⟩ := split
      rw [parts] at own
      cases (show leaf' = leaf from own)
      obtain ⟨other, splits, same⟩ := qualifiedSymbolParts_eq_some.mp parts
      obtain ⟨rfl, rfl⟩ := Separator.eq_of_append (List.append_cancel_right same)
      exact splits
  · intro splits
    rw [leafName, qualifiedSymbolParts_eq_some.mpr ⟨separator, splits, rfl⟩]
    rfl

def FileEntry.EnclosedBy (file : FileEntry) (symbol : Symbol) (owner : Text) : Prop :=
  ∃ candidate ∈ file.symbols, candidate.name = owner ∧ candidate.startLine ≤ symbol.startLine ∧
    symbol.endLine ≤ candidate.endLine ∧
    (candidate.startLine < symbol.startLine ∨ symbol.endLine < candidate.endLine)

theorem symbolMatchesQualifiedName_self (file : FileEntry) (symbol : Symbol) :
    symbolMatchesQualifiedName file symbol symbol.name = true := by
  simp [symbolMatchesQualifiedName]

theorem symbolMatchesQualifiedName_iff {file : FileEntry} {symbol : Symbol} {owner : Text}
    {separator : Separator} (splits : separator.Splits owner symbol.name) :
    symbolMatchesQualifiedName file symbol (owner ++ separator.text ++ symbol.name) = true ↔
      file.EnclosedBy symbol (leafName owner) := by
  have differs : symbol.name ≠ owner ++ separator.text ++ symbol.name := by
    intro same
    have lengths := congrArg List.length same
    have positive := separator.length_text_pos
    simp only [List.length_append] at lengths
    omega
  rw [symbolMatchesQualifiedName, qualifiedSymbolParts_eq_some.mpr ⟨separator, splits, rfl⟩,
    decide_eq_false differs, Bool.false_or]
  simp [FileEntry.EnclosedBy, leafName, and_assoc]

namespace CodeIndex

variable {ws : Workspace} {index : CodeIndex}

/-- A declaration is found by a request, in the whole index and in its file. -/
def FindsDeclaration (index : CodeIndex) (file : FileEntry) (symbol : Symbol)
    (request : Text) : Prop :=
  ⟨file.path, symbol, file.hash⟩ ∈ index.findSymbols request ∧
    ⟨file.path, symbol, file.hash⟩ ∈ index.findSymbolsAt file.path request

theorem mem_findSymbolsAt (canonical : index.Canonical) {file : FileEntry}
    (found : index.lookup file.path = some file) {symbol : Symbol} {request : Text} :
    ⟨file.path, symbol, file.hash⟩ ∈ index.findSymbolsAt file.path request ↔
      (symbol ∈ file.symbols ∧ symbol.name = leafName request) ∧
        symbolMatchesQualifiedName file symbol request = true := by
  have got : index.get file.path = some file := by
    rw [get, canonical file.path file found]
    exact found
  rw [findSymbolsAt, got, List.mem_map]
  constructor
  · rintro ⟨other, mem, same⟩
    cases same
    obtain ⟨named, accepted⟩ := List.mem_filter.mp mem
    obtain ⟨declared, leaf⟩ := List.mem_filter.mp named
    exact ⟨⟨declared, of_decide_eq_true leaf⟩, accepted⟩
  · rintro ⟨⟨declared, leaf⟩, accepted⟩
    refine ⟨symbol, List.mem_filter.mpr ⟨List.mem_filter.mpr ⟨declared, ?_⟩, accepted⟩, rfl⟩
    exact decide_eq_true leaf

theorem mem_findSymbols (posted : index.Posted) (canonical : index.Canonical) {file : FileEntry}
    (found : index.lookup file.path = some file) {symbol : Symbol} {request : Text}
    (mem : ⟨file.path, symbol, file.hash⟩ ∈ index.findSymbolsAt file.path request) :
    ⟨file.path, symbol, file.hash⟩ ∈ index.findSymbols request := by
  rw [findSymbols_eq posted canonical, List.mem_flatMap]
  refine ⟨file.path, (Finset.mem_sort _).mpr (mem_paths.mpr ?_), mem⟩
  rw [found]
  rfl

theorem findsDeclaration_iff (posted : index.Posted) (canonical : index.Canonical)
    {file : FileEntry} (indexed : file ∈ index.entries) {symbol : Symbol}
    (declared : symbol ∈ file.symbols) {request : Text} :
    index.FindsDeclaration file symbol request ↔
      symbol.name = leafName request ∧ symbolMatchesQualifiedName file symbol request = true := by
  have found := mem_entries.mp indexed
  constructor
  · rintro ⟨-, inFile⟩
    obtain ⟨⟨-, leaf⟩, accepted⟩ := (mem_findSymbolsAt canonical found).mp inFile
    exact ⟨leaf, accepted⟩
  · rintro ⟨leaf, accepted⟩
    have inFile := (mem_findSymbolsAt canonical found).mpr ⟨⟨declared, leaf⟩, accepted⟩
    exact ⟨mem_findSymbols posted canonical found inFile, inFile⟩

theorem findsDeclaration_name (posted : index.Posted) (canonical : index.Canonical)
    {file : FileEntry} (indexed : file ∈ index.entries) {symbol : Symbol}
    (declared : symbol ∈ file.symbols) :
    index.FindsDeclaration file symbol symbol.name ↔ ¬Qualified symbol.name := by
  rw [findsDeclaration_iff posted canonical indexed declared, ← leafName_eq_self, eq_comm]
  exact and_iff_left (symbolMatchesQualifiedName_self file symbol)

theorem findsDeclaration_qualified (posted : index.Posted) (canonical : index.Canonical)
    {file : FileEntry} (indexed : file ∈ index.entries) {symbol : Symbol}
    (declared : symbol ∈ file.symbols) {owner : Text} {separator : Separator} :
    index.FindsDeclaration file symbol (owner ++ separator.text ++ symbol.name) ↔
      separator.Splits owner symbol.name ∧ file.EnclosedBy symbol (leafName owner) := by
  rw [findsDeclaration_iff posted canonical indexed declared, eq_comm, leafName_append]
  exact and_congr_right fun splits => symbolMatchesQualifiedName_iff splits

end CodeIndex

/-- After any edits of the index a declaration is found by its own name just where that name has
no separator to be split at, and by the name of a symbol it lies in and its own just where the
request is split between the two and a symbol named as the last part of the first encloses it. -/
theorem findsDeclarations_iff (ws : Workspace) (edits : List IndexEdit) {file : FileEntry}
    {symbol : Symbol} (indexed : file ∈ (IndexEdit.run ws edits).entries)
    (declared : symbol ∈ file.symbols) :
    ((IndexEdit.run ws edits).FindsDeclaration file symbol symbol.name ↔
      ¬Qualified symbol.name) ∧
    ∀ (owner : Text) (separator : Separator), file.EnclosedBy symbol owner →
      ((IndexEdit.run ws edits).FindsDeclaration file symbol
          (owner ++ separator.text ++ symbol.name) ↔
        separator.Splits owner symbol.name ∧ file.EnclosedBy symbol (leafName owner)) := by
  obtain ⟨built, canonical⟩ := @CodeIndex.built_run ws edits
  constructor
  · exact CodeIndex.findsDeclaration_name built.posted canonical indexed declared
  · intro owner separator _
    exact CodeIndex.findsDeclaration_qualified built.posted canonical indexed declared

namespace Sample

def namespaced : FileEntry where
  path := "a.cs".toList
  content := "namespace A.B \x7b\nclass C \x7b \x7d\n\x7d\n".toList
  hash := []
  symbols := [⟨"A.B".toList, "namespace_declaration".toList, 1, 3, []⟩,
    ⟨"C".toList, "class_declaration".toList, 2, 2, []⟩]
  size := 0
  modifiedNs := 0

def indexing : List IndexEdit := [.insert namespaced rfl]

theorem namespaced_indexed : namespaced ∈ (IndexEdit.run Workspace.plain indexing).entries := by
  rw [CodeIndex.mem_entries]
  exact (CodeIndex.lookup_insert Workspace.plain .empty namespaced _).trans (if_pos rfl)

end Sample

theorem findsDeclarations_class :
    (IndexEdit.run Workspace.plain Sample.indexing).FindsDeclaration Sample.namespaced
      ⟨"C".toList, "class_declaration".toList, 2, 2, []⟩ "C".toList :=
  (findsDeclarations_iff Workspace.plain Sample.indexing Sample.namespaced_indexed
    (List.mem_cons_of_mem _ List.mem_cons_self)).1.mpr
      (qualifiedSymbolParts_eq_none.mp (by decide))

/-- The namespace is not found by its name, nor the class by the name of the namespace and its
own. -/
theorem namespace_unfound :
    Sample.namespaced ∈ (IndexEdit.run Workspace.plain Sample.indexing).entries ∧
    Sample.namespaced.symbols = [⟨"A.B".toList, "namespace_declaration".toList, 1, 3, []⟩,
      ⟨"C".toList, "class_declaration".toList, 2, 2, []⟩] ∧
    ¬(IndexEdit.run Workspace.plain Sample.indexing).FindsDeclaration Sample.namespaced
      ⟨"A.B".toList, "namespace_declaration".toList, 1, 3, []⟩ "A.B".toList ∧
    ¬(IndexEdit.run Workspace.plain Sample.indexing).FindsDeclaration Sample.namespaced
      ⟨"C".toList, "class_declaration".toList, 2, 2, []⟩ "A.B.C".toList := by
  obtain ⟨built, canonical⟩ := @CodeIndex.built_run Workspace.plain Sample.indexing
  refine ⟨Sample.namespaced_indexed, rfl, fun found => ?_, fun found => ?_⟩
  · have leaf := ((CodeIndex.findsDeclaration_iff built.posted canonical Sample.namespaced_indexed
      List.mem_cons_self).mp found).1
    revert leaf
    decide
  · have accepted := ((CodeIndex.findsDeclaration_iff built.posted canonical
      Sample.namespaced_indexed (List.mem_cons_of_mem _ List.mem_cons_self)).mp found).2
    revert accepted
    decide

end CodeWeave
