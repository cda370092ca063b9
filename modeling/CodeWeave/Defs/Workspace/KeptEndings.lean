import CodeWeave.Defs.Workspace.CrlfMatches
import CodeWeave.Defs.Workspace.RangeReplacement
import CodeWeave.Defs.Workspace.Sequential

namespace CodeWeave

open Substitution

/-- A content without a terminator of another kind than one before it, which had one kind. -/
def KeepsEndings (content after : Text) : Prop :=
  match lineEndingLabel content with
  | .crlf => AllCrlf after
  | .lf => '\r' ∉ after
  | _ => True

theorem keepsEndings_crlf {content after : Text} (label : lineEndingLabel content = .crlf) :
    KeepsEndings content after ↔ AllCrlf after := by
  rw [KeepsEndings, label]

theorem keepsEndings_lf {content after : Text} (label : lineEndingLabel content = .lf) :
    KeepsEndings content after ↔ '\r' ∉ after := by
  rw [KeepsEndings, label]

theorem endings_cases (content : Text) : lineEndingLabel content = .crlf ∨
    lineEndingLabel content = .lf ∨ lineEndingLabel content ≠ .crlf ∧
      ∀ after, KeepsEndings content after := by
  simp only [KeepsEndings]
  cases lineEndingLabel content <;> simp

def textAbove (content : Text) : Option RangeHandleWire → Text
  | none => []
  | some handle => linesBetween content 0 (handle.startLine - 1)

def selectedText (content : Text) : Option RangeHandleWire → Text
  | none => content
  | some handle => linesBetween content (handle.startLine - 1) handle.endLine

def textBelow (content : Text) : Option RangeHandleWire → Text
  | none => []
  | some handle => linesBetween content handle.endLine (max handle.endLine (lines content).length)

/-- What a change does not replace is in the content as it was.  An overwriting create
replaces all of it. -/
def KeepsText (content after : Text) (handle : Option RangeHandleWire) : Change → Prop
  | .replace _ oldText _ expected _ _ => ∃ found replacement selected,
      (found = oldText ∨ found = normalizeLineEndingsForContent content oldText) ∧
      Substituted found replacement expected (selectedText content handle) selected ∧
      after = textAbove content handle ++ selected ++ textBelow content handle
  | .replaceRange _ _ _ => ∃ replacement,
      after = textAbove content handle ++ replacement ++ textBelow content handle
  | .insert _ _ _ _ _ => ∃ above inserted below,
      content = above ++ below ∧ after = above ++ inserted ++ below
  | _ => True

/-- Matches that come between the characters of a CRLF, and a text to put there. -/
def PartsCrlf (content : Text) (handle : Option RangeHandleWire) : Change → Prop
  | .replace _ oldText newText expected _ _ =>
    lineEndingLabel content = .crlf ∧ newText ≠ [] ∧ 0 < expected ∧
      (oldText = [] ∧ '\n' ∈ selectedText content handle ∨
        oldText.head? = some '\n' ∧ (matchIndices (selectedText content handle)
          (normalizeLineEndings oldText ['\r', '\n'])).length ≠ expected)
  | _ => False

def Change.rewrites : Change → Bool
  | .delete _ _ | .rename _ _ _ => false
  | _ => true

section

variable {content : Text}

theorem normalize_crlf (label : lineEndingLabel content = .crlf) (text : Text) :
    normalizeLineEndingsForContent content text = normalizeLineEndings text ['\r', '\n'] := by
  rw [normalizeLineEndingsForContent, label]

theorem allCrlf_normalized (label : lineEndingLabel content = .crlf) (text : Text) :
    AllCrlf (normalizeLineEndingsForContent content text) := by
  rw [normalize_crlf label, normalizeLineEndings_eq]
  exact allCrlf_withEnding (carriage_notMem_toLf text)

theorem carriage_notMem_normalized (label : lineEndingLabel content = .lf) (text : Text) :
    '\r' ∉ normalizeLineEndingsForContent content text := by
  simp only [normalizeLineEndingsForContent, label]
  rw [normalizeLineEndings_eq, withEnding_lf]
  exact carriage_notMem_toLf text

theorem allCrlf_preserved {selected new : Text} (allNew : AllCrlf new)
    (whole : ['\n'] <:+ selected → ['\r', '\n'] <:+ selected) :
    AllCrlf (preserveTerminalLineEnding selected new) := by
  rw [preserveTerminalLineEnding]
  split
  · exact allNew
  · next restored =>
    rw [not_or, not_or, not_not] at restored
    rw [if_pos (whole restored.2.2)]
    exact allNew.append trivial

theorem carriage_notMem_preserved {selected new : Text} (plain : '\r' ∉ selected)
    (plainNew : '\r' ∉ new) : '\r' ∉ preserveTerminalLineEnding selected new := by
  have other : ¬['\r', '\n'] <:+ selected := fun suffix =>
    plain (suffix.subset List.mem_cons_self)
  rw [preserveTerminalLineEnding, if_neg other]
  split
  · exact plainNew
  · simpa using plainNew

theorem matchingOldText_found {selected old : Text} {expected : Nat}
    (counted : (matchingOldText content selected old expected).2 = expected) :
    occurrences selected (matchingOldText content selected old expected).1 = expected ∧
      ((matchingOldText content selected old expected).1 =
          normalizeLineEndingsForContent content old ∨
        (matchingOldText content selected old expected).1 = old ∧
          occurrences selected (normalizeLineEndingsForContent content old) ≠ expected) := by
  refine ⟨(matchingOldText_count content selected old expected).symm.trans counted, ?_⟩
  rw [matchingOldText]
  split
  · exact .inl rfl
  · next other =>
    by_cases same : normalizeLineEndingsForContent content old = old
    · exact .inl same.symm
    · exact .inr ⟨rfl, fun matched => other ⟨same, matched⟩⟩

theorem replacedText_eq_ok {old new after : Text} {expected : Nat} {path : RelPath}
    {handle : Option RangeHandleWire}
    (order : ∀ found ∈ handle, found.startLine ≤ found.endLine)
    (replaced : replacedText content old new expected path handle = .ok after) :
    ∃ found, occurrences (selectedText content handle) found = expected ∧
      (found = normalizeLineEndingsForContent content old ∨ found = old ∧
        occurrences (selectedText content handle) (normalizeLineEndingsForContent content old) ≠
          expected) ∧
      after = textAbove content handle ++
        replacen (selectedText content handle) found
          (preserveTerminalLineEnding found (normalizeLineEndingsForContent content new)) expected ++
        textBelow content handle := by
  cases handle with
  | none =>
    simp only [replacedText, bind_eq_ok, require_eq_ok] at replaced
    obtain ⟨-, counted, eq⟩ := replaced
    obtain ⟨occurs, form⟩ := matchingOldText_found (of_decide_eq_true counted)
    refine ⟨_, occurs, form, ?_⟩
    rw [textAbove, textBelow, List.nil_append, List.append_nil]
    exact (Except.ok.inj eq).symm
  | some handle =>
    obtain ⟨start, stop, range, above, between, below⟩ := lineRange_eq content (order handle rfl)
    simp only [replacedText, range, bind_eq_ok, require_eq_ok, Except.ok.injEq] at replaced
    obtain ⟨_, rfl, -, counted, eq⟩ := replaced
    rw [between] at counted eq
    obtain ⟨occurs, form⟩ := matchingOldText_found (of_decide_eq_true counted)
    refine ⟨_, occurs, form, ?_⟩
    rw [textAbove, textBelow, ← above, ← below]
    exact eq.symm

end

section

variable {content old new selected found : Text} {expected : Nat}
  (occurs : occurrences selected found = expected)
  (form : found = normalizeLineEndingsForContent content old ∨ found = old ∧
    occurrences selected (normalizeLineEndingsForContent content old) ≠ expected)

include occurs form

theorem carriage_notMem_replacen (label : lineEndingLabel content = .lf)
    (plain : '\r' ∉ selected) :
    '\r' ∉ replacen selected found
      (preserveTerminalLineEnding found (normalizeLineEndingsForContent content new)) expected := by
  have substituted := substituted_replacen found
    (preserveTerminalLineEnding found (normalizeLineEndingsForContent content new)) selected
  rw [occurs] at substituted
  cases expected with
  | zero =>
    rw [substituted.eq_of_zero]
    exact plain
  | succ count =>
    have plainFound : '\r' ∉ found := fun mem => plain (substituted.occurs.subset mem)
    exact substituted.notMem plain
      (carriage_notMem_preserved plainFound (carriage_notMem_normalized label new))

omit occurs form in
theorem allCrlf_replacen_empty (all : AllCrlf selected) {replacement : Text}
    (allNew : AllCrlf replacement) :
    AllCrlf (replacen selected [] replacement (selected.length + 1)) ↔
      ¬(replacement ≠ [] ∧ '\n' ∈ selected) := by
  have substituted := substituted_replacen [] replacement selected
  rw [occurrences_empty] at substituted
  by_cases empty : replacement = []
  · subst empty
    rw [substituted.eq_of_same]
    exact iff_of_true all fun parts => parts.1 rfl
  · by_cases newline : '\n' ∈ selected
    · refine iff_of_false ?_ (not_not.mpr ⟨empty, newline⟩)
      obtain ⟨front, rest, shape⟩ := List.append_of_mem newline
      rw [shape] at all
      obtain ⟨above, rfl⟩ := all.before_newline
      rw [replacen_empty, shape]
      have parted := @not_allCrlf_parted replacement
        (replacement ++ above.flatMap fun c => c :: replacement)
        ('\n' :: replacement ++ rest.flatMap fun c => c :: replacement) empty allNew
      simpa using parted
    · exact iff_of_true (allCrlf_substituted_plain substituted newline
        (carriage_notMem_of_allCrlf all newline) allNew) fun parts => newline parts.2

theorem allCrlf_replacen_iff (label : lineEndingLabel content = .crlf) (all : AllCrlf selected) :
    AllCrlf (replacen selected found
        (preserveTerminalLineEnding found (normalizeLineEndingsForContent content new)) expected) ↔
      ¬(new ≠ [] ∧ 0 < expected ∧ (old = [] ∧ '\n' ∈ selected ∨ old.head? = some '\n' ∧
        occurrences selected (normalizeLineEndings old ['\r', '\n']) ≠ expected)) := by
  have allNew := allCrlf_normalized label new
  have written : normalizeLineEndingsForContent content new = [] ↔ new = [] := by
    rw [normalize_crlf label]
    exact normalizeLineEndings_eq_nil (List.cons_ne_nil _ _)
  generalize normalizeLineEndingsForContent content new = newText at allNew written ⊢
  have substituted := substituted_replacen found (preserveTerminalLineEnding found newText) selected
  rw [occurs] at substituted
  rw [normalize_crlf label] at form
  cases expected with
  | zero =>
    rw [substituted.eq_of_zero]
    exact iff_of_true all fun parts => absurd parts.2.1 (Nat.lt_irrefl 0)
  | succ count =>
    rcases form with normal | ⟨rfl, differ⟩
    · by_cases empty : old = []
      · have none : found = [] := by rw [normal, empty]; rfl
        have kept : preserveTerminalLineEnding [] newText = newText :=
          if_pos (.inr (.inr (by decide)))
        rw [none, occurrences_empty] at occurs
        rw [none, kept, ← occurs, allCrlf_replacen_empty all allNew, ne_eq, written]
        simp [empty]
      · have allFound : AllCrlf found := by
          rw [normal, normalizeLineEndings_eq]
          exact allCrlf_withEnding (carriage_notMem_toLf old)
        have nonempty : found ≠ [] := by
          rwa [normal, ne_eq, normalizeLineEndings_eq_nil (List.cons_ne_nil _ _)]
        refine iff_of_true (allCrlf_substituted substituted nonempty all allFound
          (allCrlf_preserved allNew (crlf_suffix_of_allCrlf allFound))) ?_
        rintro ⟨-, -, ⟨none, -⟩ | ⟨-, differ⟩⟩
        · exact empty none
        · exact differ (normal ▸ occurs)
    · rw [← occurs] at differ
      obtain ⟨newline, carriage⟩ := parted_of_occurrences_ne all substituted.occurs differ
      have kept : preserveTerminalLineEnding found newText = newText := by
        refine if_pos (.inr (.inr fun ended => ?_))
        rw [newline_suffix_iff, carriage] at ended
        cases ended
      rw [kept] at substituted ⊢
      by_cases empty : newText = []
      · subst empty
        exact iff_of_true (@allCrlf_deleted _ _ _ _ substituted newline carriage [] all)
          fun parts => parts.1 (written.mp rfl)
      · exact iff_of_false (not_allCrlf_substituted substituted all newline empty allNew)
          (not_not.mpr ⟨fun none => empty (written.mpr none), Nat.succ_pos count,
            .inr ⟨newline, occurs ▸ differ⟩⟩)

end

theorem order_of_editHandle {ws : Workspace} {change : Change} {path : Text}
    {handle : Option RangeHandleWire} (decoded : ws.editHandle change path = .ok handle) :
    ∀ found ∈ handle, found.startLine ≤ found.endLine := by
  rintro found rfl
  rw [Workspace.editHandle] at decoded
  split at decoded
  · cases decoded
  · simp only [bind_eq_ok, require_eq_ok] at decoded
    obtain ⟨other, wire, -, -, same⟩ := decoded
    obtain rfl := Option.some.inj (Except.ok.inj same)
    exact (valid_of_decodeHandle wire).1

section

variable {content : Text} {handle : Option RangeHandleWire}

theorem allCrlf_between {above between below : Text} (allAbove : AllCrlf above)
    (allBelow : AllCrlf below) : AllCrlf (above ++ between ++ below) ↔ AllCrlf between := by
  constructor
  · intro all
    rw [List.append_assoc] at all
    have rest := (all.of_append allAbove.last).2
    by_cases empty : below = []
    · rwa [empty, List.append_nil] at rest
    · exact (rest.of_append (rest.clear empty allBelow.head)).1
  · intro all
    exact (allAbove.append all).append allBelow

theorem keepsEndings_between {above between below : Text} (keptAbove : KeepsEndings content above)
    (keptBelow : KeepsEndings content below) :
    KeepsEndings content (above ++ between ++ below) ↔ KeepsEndings content between := by
  rcases endings_cases content with label | label | ⟨-, free⟩
  · rw [keepsEndings_crlf label] at keptAbove keptBelow
    rw [keepsEndings_crlf label, keepsEndings_crlf label]
    exact allCrlf_between keptAbove keptBelow
  · rw [keepsEndings_lf label] at keptAbove keptBelow
    rw [keepsEndings_lf label, keepsEndings_lf label, List.mem_append, List.mem_append]
    simp only [keptAbove, keptBelow, false_or, or_false]
  · exact iff_of_true (free _) (free _)

theorem keepsEndings_linesBetween (content : Text) {first last : Nat} (order : first ≤ last) :
    KeepsEndings content (linesBetween content first last) := by
  rcases endings_cases content with label | label | ⟨-, free⟩
  · rw [keepsEndings_crlf label]
    exact (lineEndingLabel_crlf.mp label).1.linesBetween order
  · rw [keepsEndings_lf label]
    intro carriage
    refine (lineEndingLabel_lf.mp label).1 ?_
    rw [← linesBetween_all content (Nat.le_max_right last (lines content).length),
      ← linesBetween_append content (Nat.zero_le first) (order.trans (Nat.le_max_left _ _)),
      ← linesBetween_append content order (Nat.le_max_left _ _)]
    exact List.mem_append_right _ (List.mem_append_left _ carriage)
  · exact free _

theorem keepsEndings_self (content : Text) : KeepsEndings content content := by
  simpa only [linesBetween_all content (Nat.le_refl _)] using
    keepsEndings_linesBetween content (Nat.zero_le (lines content).length)

theorem keepsEndings_parts (order : ∀ found ∈ handle, found.startLine ≤ found.endLine) :
    KeepsEndings content (textAbove content handle) ∧
      KeepsEndings content (selectedText content handle) ∧
      KeepsEndings content (textBelow content handle) := by
  cases handle with
  | none =>
    have empty : KeepsEndings content [] := by
      simpa only [linesBetween_self] using keepsEndings_linesBetween content (Nat.le_refl 0)
    exact ⟨empty, keepsEndings_self content, empty⟩
  | some found =>
    have ordered := order found rfl
    exact ⟨keepsEndings_linesBetween content (Nat.zero_le _),
      keepsEndings_linesBetween content (by omega),
      keepsEndings_linesBetween content (Nat.le_max_left _ _)⟩

theorem keepsEndings_normalized (content text : Text) :
    KeepsEndings content (normalizeLineEndingsForContent content text) := by
  rcases endings_cases content with label | label | ⟨-, free⟩
  · rw [keepsEndings_crlf label]
    exact allCrlf_normalized label text
  · rw [keepsEndings_lf label]
    exact carriage_notMem_normalized label text
  · exact free _

theorem keepsEndings_preserved {selected : Text} (kept : KeepsEndings content selected)
    (text : Text) :
    KeepsEndings content (preserveTerminalLineEnding selected
      (normalizeLineEndingsForContent content text)) := by
  have keptNew := keepsEndings_normalized content text
  rcases endings_cases content with label | label | ⟨-, free⟩
  · rw [keepsEndings_crlf label] at kept keptNew ⊢
    exact allCrlf_preserved keptNew (crlf_suffix_of_allCrlf kept)
  · rw [keepsEndings_lf label] at kept keptNew ⊢
    exact carriage_notMem_preserved kept keptNew
  · exact free _

theorem keepsEndings_replacen_iff (kept : KeepsEndings content (selectedText content handle))
    {path old new found : Text} {expected : Nat} {hash : Option ContentHash} {token : Option Text}
    (occurs : occurrences (selectedText content handle) found = expected)
    (form : found = normalizeLineEndingsForContent content old ∨ found = old ∧
      occurrences (selectedText content handle) (normalizeLineEndingsForContent content old) ≠
        expected) :
    KeepsEndings content (replacen (selectedText content handle) found
        (preserveTerminalLineEnding found (normalizeLineEndingsForContent content new)) expected) ↔
      ¬PartsCrlf content handle (.replace path old new expected hash token) := by
  rw [PartsCrlf]
  rcases endings_cases content with label | label | ⟨other, free⟩
  · rw [keepsEndings_crlf label] at kept ⊢
    rw [allCrlf_replacen_iff occurs form label kept]
    simp only [label, true_and]
    rfl
  · rw [keepsEndings_lf label] at kept ⊢
    exact iff_of_true (carriage_notMem_replacen occurs form label kept)
      fun parts => by rw [label] at parts; cases parts.1
  · exact iff_of_true (free _) fun parts => other parts.1

end

section

variable {ws : Workspace} {change : Change} {hasSnapshot : Bool} {plan plan' : EditPlan}
  {index : CodeIndex} {path : RelPath} {handle : Option RangeHandleWire} {content : Text}

/-- A change of a file's text keeps its line endings of one kind, and the text it does not
replace, exactly when its matches do not part a CRLF. -/
theorem planChange_keeps_iff (named : RelPath.new change.path = .ok path)
    (decoded : ws.editHandle change path.text = .ok handle)
    (current : plannedContent plan index path = some content) (rewrites : change.rewrites = true)
    (planned : ws.planChange change hasSnapshot plan index = .ok plan') :
    (∃ after, plannedContent plan' index path = some after ∧ KeepsEndings content after ∧
        KeepsText content after handle change) ↔ ¬PartsCrlf content handle change := by
  have order := order_of_editHandle decoded
  have applied := ws.applyChange_of_planChange named decoded planned
  rw [current] at applied
  have put {after : Text} (eq : plan' = putPlan ws plan path (some content) (some after)) :
      plannedContent plan' index path = some after := by
    rw [eq, plannedContent_putPlan, Files.set, if_pos rfl]
  cases change with
  | create source text overwrite expected =>
    simp only [Workspace.applyChange, bind_eq_ok] at applied
    obtain ⟨-, -, eq⟩ := applied
    exact iff_of_true ⟨_, put (Except.ok.inj eq).symm, keepsEndings_normalized content text, trivial⟩
      fun parts => parts
  | replace source oldText newText count expected range =>
    simp only [Workspace.applyChange, bind_eq_ok, okOr_eq_ok] at applied
    obtain ⟨_, same, after, replaced, eq⟩ := applied
    obtain rfl := Option.some.inj same
    obtain ⟨found, occurs, form, rfl⟩ := replacedText_eq_ok order replaced
    obtain ⟨keptAbove, keptSelected, keptBelow⟩ := @keepsEndings_parts content handle order
    rw [← keepsEndings_replacen_iff keptSelected occurs form,
      ← keepsEndings_between keptAbove keptBelow]
    constructor
    · rintro ⟨after, now, kept, -⟩
      rw [put (Except.ok.inj eq).symm] at now
      rwa [Option.some.inj now]
    · intro kept
      have substituted := substituted_replacen found
        (preserveTerminalLineEnding found (normalizeLineEndingsForContent content newText))
        (selectedText content handle)
      rw [occurs] at substituted
      exact ⟨_, put (Except.ok.inj eq).symm, kept, found, _, _, form.symm.imp_left And.left,
        substituted, rfl⟩
  | replaceRange source token newText =>
    simp only [Workspace.applyChange, bind_eq_ok, okOr_eq_ok] at applied
    obtain ⟨found, rfl, _, same, bounds, range, eq⟩ := applied
    obtain rfl := Option.some.inj same
    obtain ⟨start, stop, range', above, between, below⟩ := lineRange_eq content (order found rfl)
    obtain rfl := Except.ok.inj (range'.symm.trans range)
    rw [replaceRange, between, above, below] at eq
    obtain ⟨keptAbove, keptSelected, keptBelow⟩ := @keepsEndings_parts content (some found) order
    exact iff_of_true ⟨_, put (Except.ok.inj eq).symm, (keepsEndings_between keptAbove keptBelow).mpr
      (keepsEndings_preserved keptSelected newText), _, rfl⟩ fun parts => parts
  | insert source text anchorSymbol position expected =>
    simp only [Workspace.applyChange, bind_eq_ok, okOr_eq_ok] at applied
    obtain ⟨_, same, symbol, -, eq⟩ := applied
    obtain rfl := Option.some.inj same
    obtain ⟨above, below⟩ := lineOffset_parts content (insertLine position symbol)
    refine iff_of_true ⟨_, put (Except.ok.inj eq).symm, ?_, _, _, _,
      (List.take_append_drop _ content).symm, rfl⟩ fun parts => parts
    rw [replaceRange, above, below]
    exact (keepsEndings_between (keepsEndings_linesBetween content (Nat.zero_le _))
      (keepsEndings_linesBetween content (Nat.le_max_left _ _))).mpr
      (keepsEndings_normalized content text)
  | delete source expected => cases rewrites
  | rename source target expected => cases rewrites

end

namespace Sample

def replaceN (content old new : Text) (expected : Nat) : Change :=
  .replace pathN.text old new expected (some (declaring.contentHash content)) none

theorem planned_replaceN {content old new after : Text} {expected : Nat}
    (replaced : replacedText content old new expected pathN none = .ok after) :
    declaring.planChange (replaceN content old new expected) false ∅ (indexN content) =
      .ok (putPlan declaring ∅ pathN (some content) (some after)) := by
  have current : declaring.planChange (replaceN content old new expected) false ∅
      (indexN content) = _ :=
    declaring.planChange_current (RelPath.new_self pathN) rfl rfl rfl rfl
  rw [current, replaceN, Workspace.applyChange]
  simp only [okOr, bind, Except.bind, replaced]

theorem keeps_replaceN :
    ∃ after, plannedContent (putPlan declaring ∅ pathN (some "a\r\nb\r\n".toList)
          (some "a\r\nc\r\n".toList)) (indexN "a\r\nb\r\n".toList) pathN = some after ∧
        KeepsEndings "a\r\nb\r\n".toList after ∧
        KeepsText "a\r\nb\r\n".toList after none
          (replaceN "a\r\nb\r\n".toList "b\n".toList "c".toList 1) := by
  refine Iff.mpr (planChange_keeps_iff (RelPath.new_self pathN) rfl rfl rfl
    (planned_replaceN rfl)) ?_
  rintro ⟨-, -, -, ⟨nothing, -⟩ | ⟨newline, -⟩⟩
  · cases nothing
  · exact absurd newline (by decide)

-- Both matches begin behind a carriage return, and one of the normalized text has no room
-- for a second.
theorem not_keeps_replaceN :
    declaring.planChange (replaceN "\r\n\r\n\r\n".toList "\n\r".toList "x".toList 2) false ∅
        (indexN "\r\n\r\n\r\n".toList) = .ok (putPlan declaring ∅ pathN
          (some "\r\n\r\n\r\n".toList) (some "\rxx\n".toList)) ∧
      ¬KeepsEndings "\r\n\r\n\r\n".toList "\rxx\n".toList := by
  refine ⟨planned_replaceN rfl, ?_⟩
  rw [keepsEndings_crlf (by decide), allCrlf_iff]
  decide

end Sample

end CodeWeave
