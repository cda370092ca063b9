import CodeWeave.Defs.Workspace.TextEdit
import CodeWeave.Lib.Splices

namespace CodeWeave

open Splices

section

variable {pattern : Text}

theorem foldr_replaceAt_cons {starts : List Nat} {offset width : Nat} {replacement : Text}
    (beyond : ∀ start ∈ starts, offset + 1 ≤ start) (c : Char) (text : Text) :
    starts.foldr (fun start acc => replaceAt acc (start - offset) width replacement) (c :: text) =
      c :: starts.foldr (fun start acc => replaceAt acc (start - (offset + 1)) width replacement)
        text := by
  induction starts with
  | nil => rfl
  | cons start starts ih =>
    have here := beyond start List.mem_cons_self
    have shift : start - offset = start - (offset + 1) + 1 := by omega
    have width : start - (offset + 1) + 1 + width = start - (offset + 1) + width + 1 := by omega
    rw [List.foldr_cons, List.foldr_cons, ih fun later mem => beyond later (List.mem_cons_of_mem _ mem),
      replaceAt, replaceAt, shift, width, List.take_succ_cons, List.drop_succ_cons]
    rfl

theorem replacenFrom_eq (replacement text : Text) (offset skip : Nat) :
    replacenFrom pattern replacement text skip (matchIndicesFrom pattern text offset skip).length =
      ((matchIndicesFrom pattern text offset skip).foldr
        (fun start acc => replaceAt acc (start - offset) pattern.length replacement) text).drop skip := by
  induction text generalizing offset skip with
  | nil =>
    rw [matchIndicesFrom]
    split
    · next empty => simp [replacenFrom, replaceAt, empty.1, empty.2]
    · simp [replacenFrom]
  | cons c rest ih =>
    have beyond : ∀ skip, ∀ start ∈ matchIndicesFrom pattern rest (offset + 1) skip,
        offset + 1 ≤ start := by
      intro skip start mem
      have := (mem_matchIndicesFrom mem).1
      omega
    cases skip with
    | zero =>
      rw [matchIndicesFrom]
      cases found : pattern.isPrefixOf (c :: rest) with
      | true =>
        rw [if_pos rfl, List.length_cons, List.foldr_cons, foldr_replaceAt_cons (beyond _),
          List.drop_zero, Nat.sub_self, replaceAt, Nat.zero_add, List.take_zero]
        cases pattern with
        | nil =>
          rw [replacenFrom, if_pos rfl]
          exact congrArg (fun rest => replacement ++ c :: rest) (ih (offset + 1) 0)
        | cons p pattern =>
          rw [replacenFrom, if_neg (List.cons_ne_nil _ _), if_pos found, ih]
          rfl
      | false =>
        have nonempty : pattern ≠ [] := by
          rintro rfl
          cases found
        rw [if_neg Bool.false_ne_true, foldr_replaceAt_cons (beyond _), List.drop_zero]
        have later := ih (offset + 1) 0
        rw [List.drop_zero] at later
        cases count : (matchIndicesFrom pattern rest (offset + 1) 0).length with
        | zero =>
          rw [List.length_eq_zero_iff.mp count]
          rfl
        | succ n =>
          rw [replacenFrom, if_neg nonempty, found, if_neg Bool.false_ne_true, ← count, later]
    | succ skip =>
      rw [matchIndicesFrom, replacenFrom, ih, foldr_replaceAt_cons (beyond _), List.drop_succ_cons]

theorem replacen_matchIndices (text replacement : Text) :
    replacen text pattern replacement (matchIndices text pattern).length =
      (matchIndices text pattern).foldr
        (fun start acc => replaceAt acc start pattern.length replacement) text :=
  replacenFrom_eq replacement text 0 0

theorem matchingOldText_count (content selected old : Text) (expected : Nat) :
    (matchingOldText content selected old expected).2 =
      (matchIndices selected (matchingOldText content selected old expected).1).length := by
  simp only [matchingOldText]
  split
  · next found => exact found.2.symm
  · rfl

end

end CodeWeave
