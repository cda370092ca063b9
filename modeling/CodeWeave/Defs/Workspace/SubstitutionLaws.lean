import CodeWeave.Defs.Workspace.MatchLaws
import CodeWeave.Lib.Substitution

namespace CodeWeave

open Substitution

def occurrences (text pattern : Text) : Nat := (matchIndices text pattern).length

theorem length_matchIndicesFrom (pattern text : Text) (offset other skip : Nat) :
    (matchIndicesFrom pattern text offset skip).length =
      (matchIndicesFrom pattern text other skip).length := by
  induction text generalizing offset other skip with
  | nil =>
    rw [matchIndicesFrom, matchIndicesFrom]
    split <;> rfl
  | cons c rest ih =>
    cases skip with
    | zero =>
      rw [matchIndicesFrom, matchIndicesFrom]
      split
      · rw [List.length_cons, List.length_cons, ih]
      · exact ih _ _ 0
    | succ skip => exact ih _ _ skip

theorem matchIndicesFrom_passed (pattern passed rest : Text) (offset : Nat) :
    matchIndicesFrom pattern (passed ++ rest) offset passed.length =
      matchIndicesFrom pattern rest (offset + passed.length) 0 := by
  induction passed generalizing offset with
  | nil => rfl
  | cons c passed ih =>
    rw [List.cons_append, List.length_cons, matchIndicesFrom, ih, Nat.add_right_comm, Nat.add_assoc]

theorem replacenFrom_passed (pattern replacement passed rest : Text) (count : Nat) :
    replacenFrom pattern replacement (passed ++ rest) passed.length count =
      replacenFrom pattern replacement rest 0 count := by
  induction passed with
  | nil => rfl
  | cons c passed ih => rw [List.cons_append, List.length_cons, replacenFrom, ih]

section

variable {pattern : Text} (nonempty : pattern ≠ [])

include nonempty

theorem occurrences_nil : occurrences [] pattern = 0 := by
  rw [occurrences, matchIndices, matchIndicesFrom, if_neg fun empty => nonempty empty.1]
  rfl

theorem occurrences_append (rest : Text) :
    occurrences (pattern ++ rest) pattern = occurrences rest pattern + 1 := by
  obtain ⟨c, more, rfl⟩ := List.exists_cons_of_ne_nil nonempty
  have found : (c :: more).isPrefixOf (c :: (more ++ rest)) = true :=
    List.isPrefixOf_iff_prefix.mpr (List.prefix_append (c :: more) rest)
  rw [occurrences, occurrences, matchIndices, matchIndices, List.cons_append, matchIndicesFrom,
    if_pos found, List.length_cons, List.length_cons, Nat.add_sub_cancel, matchIndicesFrom_passed,
    length_matchIndicesFrom _ _ _ 0]

omit nonempty in
theorem occurrences_cons {c : Char} {rest : Text} (other : ¬pattern <+: c :: rest) :
    occurrences (c :: rest) pattern = occurrences rest pattern := by
  have absent : ¬pattern.isPrefixOf (c :: rest) = true :=
    fun found => other (List.isPrefixOf_iff_prefix.mp found)
  rw [occurrences, occurrences, matchIndices, matchIndices, matchIndicesFrom, if_neg absent,
    length_matchIndicesFrom _ _ _ 0]

theorem replacen_append (rest replacement : Text) (count : Nat) :
    replacen (pattern ++ rest) pattern replacement (count + 1) =
      replacement ++ replacen rest pattern replacement count := by
  obtain ⟨c, more, rfl⟩ := List.exists_cons_of_ne_nil nonempty
  have found : (c :: more).isPrefixOf (c :: (more ++ rest)) = true :=
    List.isPrefixOf_iff_prefix.mpr (List.prefix_append (c :: more) rest)
  rw [replacen, replacen, List.cons_append, replacenFrom, if_neg nonempty, if_pos found,
    List.length_cons, Nat.add_sub_cancel, replacenFrom_passed]

theorem replacen_cons {c : Char} {rest : Text} (other : ¬pattern <+: c :: rest)
    (replacement : Text) (count : Nat) :
    replacen (c :: rest) pattern replacement count =
      c :: replacen rest pattern replacement count := by
  have absent : ¬pattern.isPrefixOf (c :: rest) = true :=
    fun found => other (List.isPrefixOf_iff_prefix.mp found)
  rw [replacen, replacen]
  cases count with
  | zero => cases rest <;> simp [replacenFrom, nonempty]
  | succ count => rw [replacenFrom, if_neg nonempty, if_neg absent]

omit nonempty in
theorem replacen_zero (text replacement : Text) : replacen text pattern replacement 0 = text := by
  cases text <;> simp [replacen, replacenFrom]

end

theorem occurrences_empty (text : Text) : occurrences text [] = text.length + 1 := by
  induction text with
  | nil => rfl
  | cons c rest ih =>
    rw [List.length_cons, ← ih, occurrences, occurrences, matchIndices, matchIndices,
      matchIndicesFrom, List.isPrefixOf, if_pos rfl, List.length_cons, List.length_nil,
      length_matchIndicesFrom _ _ _ 0]

theorem replacen_empty (text replacement : Text) :
    replacen text [] replacement (text.length + 1) =
      replacement ++ text.flatMap fun c => c :: replacement := by
  induction text with
  | nil => simp [replacen, replacenFrom]
  | cons c rest ih =>
    rw [List.length_cons, replacen, replacenFrom, if_pos rfl, ← replacen, ih, List.flatMap_cons,
      List.cons_append]

theorem substituted_replacen (pattern replacement text : Text) :
    Substituted pattern replacement (occurrences text pattern) text
      (replacen text pattern replacement (occurrences text pattern)) := by
  by_cases empty : pattern = []
  · subst empty
    rw [occurrences_empty, replacen_empty]
    suffices along : ∀ before, Substituted [] replacement (text.length + 1) (before ++ text)
        (before ++ replacement ++ text.flatMap fun c => c :: replacement) from along []
    induction text with
    | nil =>
      intro before
      have last : Substituted [] replacement 1 (before ++ [] ++ []) (before ++ replacement ++ []) :=
        .replaced before (.kept [])
      rw [List.append_nil] at last
      exact last
    | cons c rest ih =>
      intro before
      have later := Substituted.replaced before (ih [c])
      rw [List.append_nil] at later
      rw [List.flatMap_cons]
      exact later
  · induction text using match_induction empty with
    | nil =>
      rw [occurrences_nil empty, replacen_zero]
      exact .kept []
    | found rest ih =>
      rw [occurrences_append empty, replacen_append empty]
      exact ih.matched
    | other c rest absent ih =>
      rw [occurrences_cons absent, replacen_cons empty absent]
      exact ih.cons c

end CodeWeave
