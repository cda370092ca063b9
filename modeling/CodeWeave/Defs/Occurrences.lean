import CodeWeave.Defs.ReferenceService

/-! `symbols`: the occurrences of an identifier in a content. -/

namespace CodeWeave

/-- `char::is_alphanumeric`: letters and digits, none of which is white space. -/
structure CharClasses where
  isAlphanumeric : Char → Bool
  not_whitespace : ∀ c, isAlphanumeric c = true → isWhitespace c = false

def isIdentifierContinue (chars : CharClasses) (c : Char) : Bool :=
  c = '_' || c = '$' || chars.isAlphanumeric c || c.toNat ∈ [0x200c, 0x200d] ||
    (0x0300 ≤ c.toNat && c.toNat ≤ 0x036f) || (0x1ab0 ≤ c.toNat && c.toNat ≤ 0x1aff) ||
    (0x1dc0 ≤ c.toNat && c.toNat ≤ 0x1dff) || (0x20d0 ≤ c.toNat && c.toNat ≤ 0x20ff) ||
    (0xfe20 ≤ c.toNat && c.toNat ≤ 0xfe2f)

structure EnclosedOccurrence extends IdentifierOccurrence where
  enclosingSymbol : Option Text
  deriving DecidableEq

def sourceLineStarts (content : Text) : List Nat :=
  0 :: (matchIndices content ['\n']).map (· + 1)

def sourcePosition (content : Text) (index : Nat) : Nat × Nat :=
  let lineStarts := sourceLineStarts content
  let lineIndex := (lineStarts.takeWhile (· ≤ index)).length - 1
  (lineIndex + 1, index - lineStarts.getD lineIndex 0 + 1)

def lexicalOccurrence (content identifier : Text) (index : Nat) : EnclosedOccurrence where
  startByte := utf8Count (content.take index)
  endByte := utf8Count (content.take index) + utf8Count identifier
  startLine := (sourcePosition content index).1
  startColumn := (sourcePosition content index).2
  endLine := (sourcePosition content (index + identifier.length)).1
  endColumn := (sourcePosition content (index + identifier.length)).2
  role := .other
  evidence := .lexical
  enclosingSymbol := none

def lexicalIdentifierOccurrences (chars : CharClasses) (content identifier : Text) :
    List EnclosedOccurrence :=
  (matchIndices content identifier).filterMap fun index =>
    if (content.take index).getLast?.any (isIdentifierContinue chars) ||
        (content.drop (index + identifier.length)).head?.any (isIdentifierContinue chars) then none
    else some (lexicalOccurrence content identifier index)

structure Classification where
  role : ReferenceKind
  evidence : Evidence
  enclosingSymbol : Option Text

/-- By path, content, identifier, the symbols of the file, and the occurrence's bytes. -/
abbrev Classifier := Text → Text → Text → List Symbol → Nat → Nat → Classification

def EnclosedOccurrence.classified (occurrence : EnclosedOccurrence)
    (classification : Classification) : EnclosedOccurrence :=
  { occurrence with
    role := classification.role
    evidence := classification.evidence
    enclosingSymbol := classification.enclosingSymbol }

-- The lexical pass finds the occurrences; the classification never drops one.
def identifierOccurrencesWithSymbols (chars : CharClasses) (classify : Classifier)
    (path content identifier : Text) (symbols : List Symbol) : List EnclosedOccurrence :=
  let identifier := trim identifier
  if identifier = [] then []
  else (lexicalIdentifierOccurrences chars content identifier).map fun occurrence =>
    occurrence.classified
      (classify path content identifier symbols occurrence.startByte occurrence.endByte)

def IsIdentifier (chars : CharClasses) (name : Text) : Prop :=
  name ≠ [] ∧ ∀ c ∈ name, isIdentifierContinue chars c = true

structure WordAt (chars : CharClasses) (content before name after : Text) : Prop where
  content : content = before ++ name ++ after
  start : ∀ c, before.getLast? = some c → isIdentifierContinue chars c = false
  finish : ∀ c, after.head? = some c → isIdentifierContinue chars c = false

variable {chars : CharClasses} {content name before after : Text}

theorem isWhitespace_iff (c : Char) : isWhitespace c = true ↔
    (9 ≤ c.toNat ∧ c.toNat ≤ 13) ∨ (0x2000 ≤ c.toNat ∧ c.toNat ≤ 0x200a) ∨ c.toNat = 0x20 ∨
      c.toNat = 0x85 ∨ c.toNat = 0xa0 ∨ c.toNat = 0x1680 ∨ c.toNat = 0x2028 ∨ c.toNat = 0x2029 ∨
      c.toNat = 0x202f ∨ c.toNat = 0x205f ∨ c.toNat = 0x3000 := by
  simp only [isWhitespace, Bool.or_eq_true, Bool.and_eq_true, decide_eq_true_eq, List.mem_cons,
    List.not_mem_nil, or_false, or_assoc]

theorem not_whitespace_of_identifier {c : Char} (continues : isIdentifierContinue chars c = true) :
    isWhitespace c = false := by
  refine Bool.eq_false_of_not_eq_true fun white => ?_
  have blank := (isWhitespace_iff c).mp white
  simp only [isIdentifierContinue, Bool.or_eq_true, decide_eq_true_eq, Bool.and_eq_true,
    List.mem_cons, List.not_mem_nil, or_false] at continues
  rcases continues with (((((((rfl | rfl) | alphanumeric) | joiner) | mark) | mark) | mark) | mark) |
    mark
  · cases white
  · cases white
  · rw [chars.not_whitespace c alphanumeric] at white
    cases white
  all_goals omega

theorem IsIdentifier.trim (identifier : IsIdentifier chars name) : trim name = name := by
  have solid (c : Char) (mem : c ∈ name) : isWhitespace c = false :=
    not_whitespace_of_identifier (identifier.2 c mem)
  rw [CodeWeave.trim, trimEnd]
  have front : name.dropWhile isWhitespace = name := by
    obtain ⟨c, rest, rfl⟩ := List.exists_cons_of_ne_nil identifier.1
    rw [List.dropWhile_cons_of_neg (by simp [solid c List.mem_cons_self])]
  rw [front, List.rdropWhile_eq_self_iff]
  intro some
  simp [solid _ (List.getLast_mem some)]

theorem WordAt.mem_matchIndices (word : WordAt chars content before name after)
    (identifier : IsIdentifier chars name) : before.length ∈ matchIndices content name := by
  obtain ⟨content_eq, start, -⟩ := word
  have width : 0 < name.length := List.length_pos_of_ne_nil identifier.1
  have total : content.length = before.length + name.length + after.length := by
    rw [content_eq, List.length_append, List.length_append]
  have here : name <+: content.drop before.length := by
    rw [content_eq, List.append_assoc, List.drop_left]
    exact List.prefix_append ..
  have apart (earlier : Nat) (sooner : earlier < before.length)
      (overlapping : name <+: content.drop earlier) : earlier + name.length ≤ before.length := by
    by_contra beyond
    obtain ⟨tail, eq⟩ := overlapping
    have inContent : content[before.length - 1]? = before[before.length - 1]? := by
      rw [content_eq, List.append_assoc]
      exact List.getElem?_append_left (by omega)
    have inName : (name ++ tail)[before.length - 1 - earlier]? = name[before.length - 1 - earlier]? :=
      List.getElem?_append_left (by omega)
    have last : before.getLast? = name[before.length - 1 - earlier]? := by
      rw [List.getLast?_eq_getElem?, ← inContent, ← inName, eq, List.getElem?_drop]
      congr 1
      omega
    have within : before.length - 1 - earlier < name.length := by omega
    rw [List.getElem?_eq_getElem within] at last
    have continues := identifier.2 _ (List.getElem_mem within)
    rw [start _ last] at continues
    cases continues
  have found := @mem_matchIndicesFrom_of name content 0 0 before.length (by omega) here
    (Nat.zero_le _) apart
  rwa [Nat.zero_add] at found

theorem WordAt.startByte (word : WordAt chars content before name after) :
    (lexicalOccurrence content name before.length).startByte = utf8Count before := by
  have front : content.take before.length = before := by
    rw [word.content, List.append_assoc, List.take_left]
  simp only [lexicalOccurrence, front]

theorem WordAt.endByte (word : WordAt chars content before name after) :
    (lexicalOccurrence content name before.length).endByte =
      utf8Count before + utf8Count name :=
  congrArg (· + utf8Count name) word.startByte

theorem mem_lexicalIdentifierOccurrences (identifier : IsIdentifier chars name)
    {occurrence : EnclosedOccurrence} :
    occurrence ∈ lexicalIdentifierOccurrences chars content name ↔
      ∃ before after, WordAt chars content before name after ∧
        occurrence = lexicalOccurrence content name before.length := by
  rw [lexicalIdentifierOccurrences, List.mem_filterMap]
  constructor
  · rintro ⟨index, mem, kept⟩
    split at kept
    · cases kept
    · next apart =>
      cases kept
      simp only [Bool.or_eq_true, not_or, Bool.not_eq_true, Option.any_eq_false] at apart
      obtain ⟨after, here⟩ := prefix_of_mem_matchIndicesFrom mem
      rw [Nat.sub_zero] at here
      have bound := (mem_matchIndicesFrom mem).2
      have rest : content.drop (index + name.length) = after := by
        rw [← List.drop_drop, ← here, List.drop_left]
      refine ⟨content.take index, after, ⟨?_, apart.1, ?_⟩, ?_⟩
      · rw [List.append_assoc, here, List.take_append_drop]
      · rw [← rest]; exact apart.2
      · rw [List.length_take, Nat.min_eq_left (by omega)]
  · rintro ⟨before, after, word, rfl⟩
    refine ⟨before.length, word.mem_matchIndices identifier, ?_⟩
    have front : content.take before.length = before := by
      rw [word.content, List.append_assoc, List.take_left]
    have back : content.drop (before.length + name.length) = after := by
      rw [word.content, ← List.length_append, List.drop_left]
    rw [if_neg]
    rw [front, back, Bool.or_eq_true, not_or, Bool.not_eq_true, Bool.not_eq_true,
      Option.any_eq_false, Option.any_eq_false]
    exact ⟨word.start, word.finish⟩

theorem utf8Count_take_lt {text : Text} {first second : Nat} (before : first < second)
    (bound : second ≤ text.length) : utf8Count (text.take first) < utf8Count (text.take second) := by
  have split : text.take second = text.take first ++ (text.take second).drop first := by
    have parts := List.take_append_drop first (text.take second)
    rwa [List.take_take, Nat.min_eq_left (Nat.le_of_lt before), eq_comm] at parts
  have some : utf8Count ((text.take second).drop first) ≠ 0 := fun none => by
    have empty := congrArg List.length (utf8Count_eq_zero.mp none)
    rw [List.length_drop, List.length_take, List.length_nil] at empty
    omega
  rw [split, utf8Count_append]
  omega

theorem increasing_lexicalIdentifierOccurrences (identifier : IsIdentifier chars name)
    (content : Text) : (lexicalIdentifierOccurrences chars content name).Pairwise
      fun first second => first.startByte < second.startByte := by
  have width := List.length_pos_of_ne_nil identifier.1
  rw [lexicalIdentifierOccurrences, List.pairwise_filterMap]
  refine (increasing_matchIndicesFrom content 0 0).imp_of_mem fun {first second} _ mem apart => ?_
  intro earlier kept later kept'
  split at kept
  · cases kept
  · split at kept'
    · cases kept'
    · cases kept
      cases kept'
      have bound := (mem_matchIndicesFrom mem).2
      exact utf8Count_take_lt apart.1 (by omega)

variable {classify : Classifier} {path : Text} {symbols : List Symbol}

theorem IsIdentifier.occurrences_eq (identifier : IsIdentifier chars name) :
    identifierOccurrencesWithSymbols chars classify path content name symbols =
      (lexicalIdentifierOccurrences chars content name).map fun occurrence =>
        occurrence.classified
          (classify path content name symbols occurrence.startByte occurrence.endByte) := by
  simp only [identifierOccurrencesWithSymbols, identifier.trim, if_neg identifier.1]

theorem IsIdentifier.nodup_occurrences (identifier : IsIdentifier chars name) :
    ((identifierOccurrencesWithSymbols chars classify path content name symbols).map
      fun occurrence => occurrence.startByte).Nodup := by
  rw [identifier.occurrences_eq, List.map_map, List.nodup_iff_pairwise_ne, List.pairwise_map]
  exact (increasing_lexicalIdentifierOccurrences identifier content).imp fun before =>
    Nat.ne_of_lt before

end CodeWeave
