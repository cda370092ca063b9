import CodeWeave.Defs.Text
import Mathlib.Data.List.TakeDrop
import Mathlib.Data.List.TakeWhile

namespace CodeWeave

variable {text space : Text}

theorem trimEnd_append (blank : ∀ c ∈ space, isWhitespace c = true) (text : Text) :
    trimEnd (text ++ space) = trimEnd text := by
  induction space using List.reverseRecOn with
  | nil => rw [List.append_nil]
  | append_singleton rest c ih =>
    rw [← List.append_assoc, trimEnd,
      List.rdropWhile_concat_pos _ _ _ (blank c (List.mem_append_right rest (List.mem_singleton_self c)))]
    exact ih fun d mem => blank d (List.mem_append_left [c] mem)

theorem trimEnd_eq_self (solid : ∀ c ∈ text.getLast?, isWhitespace c = false) :
    trimEnd text = text := by
  rw [trimEnd, List.rdropWhile_eq_self_iff]
  intro nonempty
  rw [solid _ (List.getLast?_eq_some_getLast nonempty)]
  exact Bool.false_ne_true

theorem trim_append (blank : ∀ c ∈ space, isWhitespace c = true) (text : Text) :
    trim (text ++ space) = trim text := by
  rw [trim, List.dropWhile_append]
  split
  · next all =>
    have empty : space.dropWhile isWhitespace = [] :=
      List.dropWhile_eq_nil_iff.mpr fun c mem => by rw [blank c mem]
    rw [empty, trim, List.isEmpty_iff.mp all]
  · exact trimEnd_append blank _

theorem trim_eq_nil (blank : ∀ c ∈ space, isWhitespace c = true) : trim space = [] :=
  trim_append blank []

theorem trim_eq_self (front : ∀ c ∈ text.head?, isWhitespace c = false)
    (back : ∀ c ∈ text.getLast?, isWhitespace c = false) : trim text = text := by
  have start : text.dropWhile isWhitespace = text := by
    cases text with
    | nil => rfl
    | cons c rest =>
      rw [List.dropWhile_cons_of_neg]
      rw [front c rfl]
      exact Bool.false_ne_true
  rw [trim, start, trimEnd_eq_self back]

theorem splitOnce_append {separator : Char} {before : Text} (apart : separator ∉ before)
    (after : Text) : splitOnce separator (before ++ separator :: after) = some (before, after) := by
  have other : ∀ c ∈ before, decide (c ≠ separator) = true := fun c mem =>
    decide_eq_true fun eq => apart (eq ▸ mem)
  rw [splitOnce, List.span_eq_takeWhile_dropWhile, List.takeWhile_append_of_pos other,
    List.dropWhile_append_of_pos other, List.takeWhile_cons_of_neg (by simp),
    List.dropWhile_cons_of_neg (by simp), List.append_nil]

theorem splitOnce_eq_none {separator : Char} {text : Text} (apart : separator ∉ text) :
    splitOnce separator text = none := by
  have other : ∀ c ∈ text, decide (c ≠ separator) = true := fun c mem =>
    decide_eq_true fun eq => apart (eq ▸ mem)
  rw [splitOnce, List.span_eq_takeWhile_dropWhile, List.dropWhile_eq_nil_iff.mpr other]

theorem splitWhitespace_cons {word : Text} (nonempty : word ≠ [])
    (solid : ∀ c ∈ word, isWhitespace c = false) {c : Char} (white : isWhitespace c = true)
    (rest : Text) : splitWhitespace (word ++ c :: rest) = word :: splitWhitespace rest := by
  have first := List.splitOnP_append_cons_of_forall_mem solid c white rest
  rw [splitWhitespace, first, List.filter_cons, if_pos (decide_eq_true nonempty), splitWhitespace]

theorem isWhitespace_isDigit {c : Char} (digit : c.isDigit = true) : isWhitespace c = false := by
  have all : ∀ n : Fin 58, (Char.ofNat n).isDigit = true → isWhitespace (Char.ofNat n) = false := by
    decide +kernel
  have small : c.toNat < 58 := by
    have bounds := Char.isDigit_iff_toNat.mp digit
    exact Nat.lt_succ_of_le bounds.2
  have here := all ⟨c.toNat, small⟩
  rw [Char.ofNat_toNat] at here
  exact here digit

theorem isDigit_of_mem_decimal {n : Nat} {c : Char} (mem : c ∈ decimal n) : c.isDigit = true := by
  rw [decimal, Nat.toString_eq_repr, Nat.toList_repr] at mem
  exact Nat.isDigit_of_mem_toDigits (by omega) (by omega) mem

theorem decimal_ne_nil (n : Nat) : decimal n ≠ [] := by
  rw [decimal, Nat.toString_eq_repr, Nat.toList_repr]
  exact Nat.toDigits_ne_nil

theorem splitOn_terminated {separator : Char} {pieces : List Text}
    (apart : ∀ piece ∈ pieces, separator ∉ piece) (nonempty : ∀ piece ∈ pieces, piece ≠ []) :
    ((pieces.flatMap (· ++ [separator])).splitOn separator).filter (· ≠ []) = pieces := by
  induction pieces with
  | nil => rfl
  | cons piece rest ih =>
    obtain ⟨apart, later⟩ := List.forall_mem_cons.mp apart
    obtain ⟨some, others⟩ := List.forall_mem_cons.mp nonempty
    rw [List.flatMap_cons, List.append_assoc, List.singleton_append,
      List.splitOn_append_cons_self_of_not_mem apart, List.filter_cons,
      if_pos (decide_eq_true some), ih later others]

theorem not_prefix_of_head {start line : Text} {c d : Char} (first : line.head? = some c)
    (begins : start.head? = some d) (other : c ≠ d) : ¬start <+: line := by
  rintro ⟨rest, rfl⟩
  cases start with
  | nil => cases begins
  | cons e start =>
    cases begins
    cases first
    exact other rfl

theorem segments_append (top rest : Text) :
    segments (top ++ '/' :: rest) = segments top ++ segments rest := by
  rw [segments, segments, segments, List.splitOn_append_cons_self, List.filter_append]

theorem segments_trimDotSlash (text : Text) : segments (trimDotSlash text) = segments text := by
  induction text using trimDotSlash.induct with
  | case1 rest ih =>
    have split : segments ('.' :: '/' :: rest) = segments ['.'] ++ segments rest :=
      segments_append ['.'] rest
    rw [trimDotSlash, ih, split]
    rfl
  | case2 text other => rw [trimDotSlash_eq_self fun rest eq => other rest eq]

theorem stripPrefix_eq_none {start text : Text} (other : ¬start <+: text) :
    stripPrefix start text = none :=
  if_neg (mt List.isPrefixOf_iff_prefix.mp other)

end CodeWeave
