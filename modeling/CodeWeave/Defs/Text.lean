import Mathlib.Data.Char
import Mathlib.Data.List.AList
import Mathlib.Data.List.DropRight
import Mathlib.Data.List.Lex

namespace CodeWeave

/-- A `str`, by its characters. -/
abbrev Text := List Char

instance : LawfulBEq Text := inferInstance

/-- A table keyed by texts or paths, as `HashMap` is. Its order means nothing. -/
abbrev Table (K : Type) (V : Type) := AList (fun _ : K => V)

def Text.bytes (t : Text) : ByteArray := (String.ofList t).toByteArray

def fromUtf8 (bytes : ByteArray) : Option Text := bytes.utf8Decode?.map Array.toList

@[simp] theorem fromUtf8_bytes (t : Text) : fromUtf8 t.bytes = some t := by
  simp [fromUtf8, Text.bytes]

def utf8Count : Text → Nat
  | [] => 0
  | c :: rest => c.utf8Size + utf8Count rest

theorem utf8Count_append (first second : Text) :
    utf8Count (first ++ second) = utf8Count first + utf8Count second := by
  induction first with
  | nil => simp [utf8Count]
  | cons c rest ih => rw [List.cons_append, utf8Count, utf8Count, ih, Nat.add_assoc]

theorem utf8Count_eq_zero {text : Text} : utf8Count text = 0 ↔ text = [] := by
  cases text with
  | nil => simp [utf8Count]
  | cons c rest =>
    have positive := c.utf8Size_pos
    simp [utf8Count]
    omega

/-- The longest part from the start that takes up no more than so many bytes, which ends
at `floor_char_boundary`. -/
def takeBytes : Text → Nat → Text
  | [], _ => []
  | c :: rest, n => if c.utf8Size ≤ n then c :: takeBytes rest (n - c.utf8Size) else []

def dropBytes : Text → Nat → Text
  | text, 0 => text
  | [], _ + 1 => []
  | c :: rest, n + 1 => if c.utf8Size ≤ n + 1 then dropBytes rest (n + 1 - c.utf8Size) else c :: rest

def charIndices : Nat → Text → List Nat
  | _, [] => []
  | offset, c :: rest => offset :: charIndices (offset + c.utf8Size) rest

@[simp] theorem takeBytes_append (first second : Text) :
    takeBytes (first ++ second) (utf8Count first) = first := by
  induction first with
  | nil =>
    cases second with
    | nil => rfl
    | cons c rest =>
      have positive := c.utf8Size_pos
      rw [List.nil_append, utf8Count, takeBytes, if_neg (by omega)]
  | cons c first ih =>
    rw [List.cons_append, utf8Count, takeBytes, if_pos (Nat.le_add_right _ _),
      Nat.add_sub_cancel_left, ih]

@[simp] theorem dropBytes_append (first second : Text) :
    dropBytes (first ++ second) (utf8Count first) = second := by
  induction first with
  | nil => rw [utf8Count, dropBytes]; rfl
  | cons c first ih =>
    have positive := c.utf8Size_pos
    rw [List.cons_append, utf8Count]
    obtain ⟨n, count⟩ : ∃ n, c.utf8Size + utf8Count first = n + 1 := ⟨_, (Nat.succ_pred (by omega)).symm⟩
    rw [count, dropBytes, if_pos (by omega), ← count, Nat.add_sub_cancel_left, ih]

theorem charIndices_getElem? (offset n : Nat) (text : Text) : (charIndices offset text)[n]? =
    if n < text.length then some (offset + utf8Count (text.take n)) else none := by
  induction text generalizing offset n with
  | nil => rfl
  | cons c rest ih =>
    cases n with
    | zero => simp [charIndices, utf8Count]
    | succ n =>
      rw [charIndices, List.getElem?_cons_succ, ih]
      simp [utf8Count, Nat.add_assoc]

def stripPrefix (start text : Text) : Option Text :=
  if start.isPrefixOf text then some (text.drop start.length) else none

theorem stripPrefix_append (start text : Text) : stripPrefix start (start ++ text) = some text := by
  have starts : start.isPrefixOf (start ++ text) = true :=
    List.isPrefixOf_iff_prefix.mpr (List.prefix_append _ _)
  rw [stripPrefix, if_pos starts, List.drop_left]

def isWhitespace (c : Char) : Bool :=
  (9 ≤ c.toNat && c.toNat ≤ 13) || (0x2000 ≤ c.toNat && c.toNat ≤ 0x200a) ||
    c.toNat ∈ [0x20, 0x85, 0xa0, 0x1680, 0x2028, 0x2029, 0x202f, 0x205f, 0x3000]

def trimEnd (text : Text) : Text := text.rdropWhile isWhitespace

def trim (text : Text) : Text := trimEnd (text.dropWhile isWhitespace)

def splitWhitespace (text : Text) : List Text := (text.splitOnP isWhitespace).filter (· ≠ [])

def splitOnce (separator : Char) (text : Text) : Option (Text × Text) :=
  match text.span (· ≠ separator) with
  | (_, []) => none
  | (before, _ :: after) => some (before, after)

def parseUsize (value : Text) : Option Nat :=
  let digits := match value with
    | '+' :: rest => rest
    | _ => value
  if digits = [] ∨ ¬digits.all Char.isDigit then none
  else
    let n := digits.foldl (fun n c => 10 * n + (c.toNat - '0'.toNat)) 0
    if n < 18446744073709551616 then some n else none

def decimal (n : Nat) : Text := (toString n).toList

theorem parseUsize_decimal {n : Nat} (bound : n < 18446744073709551616) :
    parseUsize (decimal n) = some n := by
  have isDigit : ∀ c ∈ Nat.toDigits 10 n, c.isDigit = true := fun c mem =>
    Nat.isDigit_of_mem_toDigits (by omega) (by omega) mem
  have value := Nat.ofDigitChars_toDigits (b := 10) (n := n) (by omega) (by omega)
  rw [Nat.ofDigitChars_eq_foldl] at value
  have digits : ¬(Nat.toDigits 10 n = [] ∨ ¬(Nat.toDigits 10 n).all Char.isDigit = true) := by
    rw [not_or, not_not, List.all_eq_true]
    exact ⟨Nat.toDigits_ne_nil, isDigit⟩
  rw [decimal, Nat.toString_eq_repr, Nat.toList_repr]
  unfold parseUsize
  split
  · next rest =>
    have plus := isDigit '+' (by simp [*])
    cases plus
  · simp only [if_neg digits, value, if_pos bound]

-- The matches do not overlap, and the empty pattern matches at every character
-- boundary. The last argument counts the characters of a match still to pass.
def matchIndicesFrom (pattern : Text) : Text → Nat → Nat → List Nat
  | [], offset, skip => if pattern = [] ∧ skip = 0 then [offset] else []
  | c :: rest, offset, 0 =>
    if pattern.isPrefixOf (c :: rest) then
      offset :: matchIndicesFrom pattern rest (offset + 1) (pattern.length - 1)
    else matchIndicesFrom pattern rest (offset + 1) 0
  | _ :: rest, offset, skip + 1 => matchIndicesFrom pattern rest (offset + 1) skip

def matchIndices (text pattern : Text) : List Nat := matchIndicesFrom pattern text 0 0

theorem mem_matchIndicesFrom {pattern text : Text} {offset skip start : Nat}
    (mem : start ∈ matchIndicesFrom pattern text offset skip) :
    offset + skip ≤ start ∧ start + pattern.length ≤ offset + text.length := by
  induction text generalizing offset skip with
  | nil =>
    rw [matchIndicesFrom] at mem
    split at mem
    · next empty =>
      rw [List.mem_singleton.mp mem, empty.1, empty.2]
      simp
    · cases mem
  | cons c rest ih =>
    cases skip with
    | zero =>
      rw [matchIndicesFrom] at mem
      split at mem
      · next found =>
        have within := (List.isPrefixOf_iff_prefix.mp found).length_le
        cases List.mem_cons.mp mem with
        | inl here => omega
        | inr later =>
          have := ih later
          rw [List.length_cons]
          omega
      · have := ih mem
        rw [List.length_cons]
        omega
    | succ skip =>
      rw [matchIndicesFrom] at mem
      have := ih mem
      rw [List.length_cons]
      omega

theorem increasing_matchIndicesFrom {pattern : Text} (text : Text) (offset skip : Nat) :
    (matchIndicesFrom pattern text offset skip).Pairwise fun first second =>
      first < second ∧ first + pattern.length ≤ second := by
  induction text generalizing offset skip with
  | nil =>
    rw [matchIndicesFrom]
    split
    · exact List.pairwise_singleton _ _
    · exact List.Pairwise.nil
  | cons c rest ih =>
    cases skip with
    | zero =>
      rw [matchIndicesFrom]
      split
      · refine List.pairwise_cons.mpr ⟨fun later mem => ?_, ih _ _⟩
        have := (mem_matchIndicesFrom mem).1
        omega
      · exact ih _ _
    | succ skip => exact ih _ _

theorem prefix_of_mem_matchIndicesFrom {pattern text : Text} {offset skip start : Nat}
    (mem : start ∈ matchIndicesFrom pattern text offset skip) :
    pattern <+: text.drop (start - offset) := by
  induction text generalizing offset skip with
  | nil =>
    rw [matchIndicesFrom] at mem
    split at mem
    · next empty =>
      rw [empty.1]
      exact List.nil_prefix
    · cases mem
  | cons c rest ih =>
    have later {skip : Nat} (mem : start ∈ matchIndicesFrom pattern rest (offset + 1) skip) :
        pattern <+: (c :: rest).drop (start - offset) := by
      have beyond := (mem_matchIndicesFrom mem).1
      rw [show start - offset = start - (offset + 1) + 1 by omega]
      exact ih mem
    cases skip with
    | zero =>
      rw [matchIndicesFrom] at mem
      split at mem
      · next found =>
        cases List.mem_cons.mp mem with
        | inl here =>
          rw [here, Nat.sub_self]
          exact List.isPrefixOf_iff_prefix.mp found
        | inr mem => exact later mem
      · exact later mem
    | succ skip => exact later mem

theorem mem_matchIndicesFrom_of {pattern text : Text} {offset skip : Nat} (start : Nat)
    (inside : start < text.length) (here : pattern <+: text.drop start) (passed : skip ≤ start)
    (apart : ∀ earlier < start, pattern <+: text.drop earlier → earlier + pattern.length ≤ start) :
    offset + start ∈ matchIndicesFrom pattern text offset skip := by
  induction text generalizing offset skip start with
  | nil => exact absurd inside (Nat.not_lt_zero start)
  | cons c rest ih =>
    have later {skip : Nat} (after : 0 < start) (passed : skip ≤ start - 1) :
        offset + start ∈ matchIndicesFrom pattern rest (offset + 1) skip := by
      obtain ⟨start, rfl⟩ := Nat.exists_eq_succ_of_ne_zero (Nat.ne_of_gt after)
      have mem := @ih (offset + 1) skip start (Nat.lt_of_succ_lt_succ inside) here passed
        fun earlier before found => by
          have gap := apart (earlier + 1) (Nat.succ_lt_succ before) found
          omega
      rwa [show offset + (start + 1) = offset + 1 + start by omega]
    cases skip with
    | succ skip => exact later (by omega) (by omega)
    | zero =>
      rw [matchIndicesFrom]
      cases start with
      | zero =>
        have found : pattern <+: c :: rest := here
        rw [if_pos (List.isPrefixOf_iff_prefix.mpr found)]
        exact List.mem_cons_self
      | succ start =>
        split
        · next found =>
          have gap := apart 0 (Nat.succ_pos start) (List.isPrefixOf_iff_prefix.mp found)
          exact List.mem_cons_of_mem _ (later (Nat.succ_pos start) (by omega))
        · exact later (Nat.succ_pos start) (Nat.zero_le _)

theorem matchIndices_nil (text : Text) : ∃ rest, matchIndices text [] = 0 :: rest := by
  cases text with
  | nil => exact ⟨[], rfl⟩
  | cons c rest => exact ⟨_, rfl⟩

def splitInclusive : Text → List Text
  | [] => []
  | c :: rest =>
    if c = '\n' then ['\n'] :: splitInclusive rest
    else
      match splitInclusive rest with
      | [] => [[c]]
      | line :: lines => (c :: line) :: lines

def lines (text : Text) : List Text :=
  (splitInclusive text).map fun line =>
    if line.getLast? = some '\n' then
      let line := line.dropLast
      if line.getLast? = some '\r' then line.dropLast else line
    else line

theorem flatten_splitInclusive (text : Text) : (splitInclusive text).flatten = text := by
  induction text with
  | nil => rfl
  | cons c rest ih =>
    rw [splitInclusive]
    split
    · next newline => rw [List.flatten_cons, ih, newline]; rfl
    · cases split : splitInclusive rest with
      | nil => rw [← ih, split]; rfl
      | cons line more => rw [← ih, split]; rfl

theorem infix_of_mem_lines {text line : Text} (mem : line ∈ lines text) : line <:+: text := by
  obtain ⟨piece, among, rfl⟩ := List.mem_map.mp mem
  have within : piece <:+: text := by
    obtain ⟨before, after, eq⟩ := List.append_of_mem among
    refine ⟨before.flatten, after.flatten, ?_⟩
    rw [← flatten_splitInclusive text, eq, List.flatten_append, List.flatten_cons,
      List.append_assoc]
  refine List.IsInfix.trans ?_ within
  simp only
  split
  · split
    · exact ((List.dropLast_prefix _).trans (List.dropLast_prefix _)).isInfix
    · exact (List.dropLast_prefix _).isInfix
  · exact List.infix_rfl

theorem splitInclusive_map {f : Char → Char} (newline : ∀ c, f c = '\n' ↔ c = '\n') (text : Text) :
    splitInclusive (text.map f) = (splitInclusive text).map (List.map f) := by
  induction text with
  | nil => rfl
  | cons c rest ih =>
    simp only [List.map_cons, splitInclusive, newline, ih]
    split
    · next eq => simp [(newline '\n').mpr rfl]
    · cases splitInclusive rest <;> rfl

theorem lines_map {f : Char → Char} (newline : ∀ c, f c = '\n' ↔ c = '\n')
    (carriage : ∀ c, f c = '\r' ↔ c = '\r') (text : Text) :
    lines (text.map f) = (lines text).map (List.map f) := by
  rw [lines, lines, splitInclusive_map newline, List.map_map, List.map_map]
  refine List.map_congr_left fun piece _ => ?_
  have ends {c : Char} (keeps : ∀ d, f d = c ↔ d = c) (line : Text) :
      (line.map f).getLast? = some c ↔ line.getLast? = some c := by
    rw [List.getLast?_map]
    cases line.getLast? with
    | none => simp
    | some d => simp [keeps]
  simp only [Function.comp_apply, ends newline, ← List.map_dropLast, ends carriage]
  split
  · split <;> rfl
  · rfl

/-- `trim_start_matches("./")`. -/
def trimDotSlash : Text → Text
  | '.' :: '/' :: rest => trimDotSlash rest
  | t => t

theorem trimDotSlash_eq_self {t : Text} (h : ∀ rest, t ≠ '.' :: '/' :: rest) :
    trimDotSlash t = t := by
  unfold trimDotSlash
  split
  · next rest => exact absurd rfl (h rest)
  · rfl

theorem trimDotSlash_ne (t rest : Text) : trimDotSlash t ≠ '.' :: '/' :: rest := by
  induction t using trimDotSlash.induct with
  | case1 t ih => rw [trimDotSlash]; exact ih
  | case2 t h =>
    rw [trimDotSlash_eq_self fun rest eq => h rest eq]
    exact fun eq => h rest eq

@[simp] theorem trimDotSlash_trimDotSlash (t : Text) :
    trimDotSlash (trimDotSlash t) = trimDotSlash t :=
  trimDotSlash_eq_self (trimDotSlash_ne t)

theorem trimDotSlash_suffix (t : Text) : trimDotSlash t <:+ t := by
  induction t using trimDotSlash.induct with
  | case1 t ih =>
    rw [trimDotSlash]
    exact ih.trans ((List.suffix_cons _ _).trans (List.suffix_cons _ _))
  | case2 t h =>
    simp only [trimDotSlash_eq_self fun rest eq => h rest eq, List.suffix_refl]

/-- The parts of a path text between its separators, without the empty ones and
`.`: what the filesystem resolves, and what `Path` compares. -/
def segments (t : Text) : List Text :=
  (t.splitOn '/').filter fun part => part ≠ [] ∧ part ≠ ['.']

def joinSegments (parts : List Text) : Text := ['/'].intercalate parts

/-- A name a directory entry can have: no separator in it, neither empty nor
`.` or `..`. A `\` counts as a separator, as it does in `normalize_path_text`. -/
structure PlainName (name : Text) : Prop where
  nonempty : name ≠ []
  notDot : name ≠ ['.']
  notParent : name ≠ ['.', '.']
  noSlash : '/' ∉ name
  noBackslash : '\\' ∉ name

def PlainPath (parts : List Text) : Prop := ∀ name ∈ parts, PlainName name

theorem segments_joinSegments_of {parts : List Text}
    (names : ∀ name ∈ parts, name ≠ [] ∧ name ≠ ['.'] ∧ '/' ∉ name) :
    segments (joinSegments parts) = parts := by
  rcases parts.eq_nil_or_concat with rfl | ⟨_, _, rfl⟩
  · decide
  · rw [segments, joinSegments, List.splitOn_intercalate _ (fun l hl => (names l hl).2.2)
      (by simp)]
    refine List.filter_eq_self.mpr fun name hn => ?_
    simpa using ⟨(names name hn).1, (names name hn).2.1⟩

@[simp] theorem segments_joinSegments {parts : List Text} (plain : PlainPath parts) :
    segments (joinSegments parts) = parts :=
  segments_joinSegments_of fun name mem =>
    ⟨(plain name mem).nonempty, (plain name mem).notDot, (plain name mem).noSlash⟩

theorem joinSegments_injOn {ps qs : List Text} (hp : PlainPath ps) (hq : PlainPath qs)
    (h : joinSegments ps = joinSegments qs) : ps = qs := by
  rw [← segments_joinSegments hp, h, segments_joinSegments hq]

theorem joinSegments_cons_cons (p q : Text) (ps : List Text) :
    joinSegments (p :: q :: ps) = p ++ '/' :: joinSegments (q :: ps) := by
  simp [joinSegments, List.intercalate_cons_cons]

theorem joinSegments_prefix {ps qs : List Text} (h : ps <+: qs) :
    joinSegments ps <+: joinSegments qs := by
  obtain ⟨rest, rfl⟩ := h
  induction ps with
  | nil => exact List.nil_prefix
  | cons p ps ih =>
    cases ps with
    | nil =>
      cases rest with
      | nil => exact List.prefix_rfl
      | cons q rest =>
        rw [List.singleton_append, joinSegments_cons_cons]
        simp [joinSegments, List.intercalate]
    | cons q ps =>
      rw [List.cons_append, List.cons_append, joinSegments_cons_cons, joinSegments_cons_cons]
      exact (List.prefix_append_right_inj p).mpr (List.cons_prefix_cons.mpr ⟨rfl, ih⟩)

end CodeWeave
