import Mathlib.Data.List.Basic

/-! A list cut after every occurrence of a mark.  Where a list stops at a mark, what
follows is cut on its own. -/

universe u

namespace Pieces

variable {A : Type u}

def cut [DecidableEq A] (mark : A) : List A → List (List A)
  | [] => []
  | a :: rest =>
    if a = mark then [mark] :: cut mark rest
    else
      match cut mark rest with
      | [] => [[a]]
      | piece :: more => (a :: piece) :: more

def Ended (mark : A) (as : List A) : Prop := ∀ a, as.getLast? = some a → a = mark

variable {mark : A} {as bs piece : List A}

theorem ended_nil : Ended mark [] := fun _ last => by cases last

theorem ended_concat (as : List A) : Ended mark (as ++ [mark]) := fun a last => by
  rw [List.getLast?_concat] at last
  exact (Option.some.inj last).symm

theorem Ended.append (ended : Ended mark as) (ended' : Ended mark bs) : Ended mark (as ++ bs) := by
  intro a last
  rw [List.getLast?_append] at last
  cases final : bs.getLast? with
  | none =>
    rw [final, Option.none_or] at last
    exact ended a last
  | some b =>
    rw [final, Option.some_or] at last
    exact ended' a (final.trans last)

theorem ended_cons {a b : A} {rest : List A} :
    Ended mark (a :: b :: rest) ↔ Ended mark (b :: rest) := by
  rw [Ended, Ended, List.getLast?_cons_cons]

variable [DecidableEq A]

theorem flatten_cut (as : List A) : (cut mark as).flatten = as := by
  induction as with
  | nil => rfl
  | cons a rest ih =>
    rw [cut]
    split
    · next marked => rw [List.flatten_cons, ih, marked]; rfl
    · cases pieces : cut mark rest with
      | nil => rw [← ih, pieces]; rfl
      | cons piece more => rw [← ih, pieces]; rfl

theorem cut_eq_nil : cut mark as = [] ↔ as = [] := by
  constructor
  · intro none
    rw [← @flatten_cut A mark _ as, none, List.flatten_nil]
  · rintro rfl
    rfl

theorem cut_append (ended : Ended mark as) (bs : List A) :
    cut mark (as ++ bs) = cut mark as ++ cut mark bs := by
  induction as with
  | nil => rfl
  | cons a rest ih =>
    cases rest with
    | nil =>
      have marked : a = mark := ended a rfl
      simp [cut, marked]
    | cons b rest =>
      rw [List.cons_append, cut, cut, ih (ended_cons.mp ended)]
      split
      · rfl
      · cases pieces : cut mark (b :: rest) with
        | nil => cases cut_eq_nil.mp pieces
        | cons piece more => rfl

theorem cut_unmarked (unmarked : mark ∉ as) (nonempty : as ≠ []) : cut mark as = [as] := by
  induction as with
  | nil => exact absurd rfl nonempty
  | cons a rest ih =>
    rw [List.mem_cons, not_or] at unmarked
    rw [cut, if_neg (Ne.symm unmarked.1)]
    by_cases empty : rest = []
    · rw [empty]; rfl
    · rw [ih unmarked.2 empty]

theorem cut_concat (unmarked : mark ∉ as) : cut mark (as ++ [mark]) = [as ++ [mark]] := by
  induction as with
  | nil => simp [cut]
  | cons a rest ih =>
    rw [List.mem_cons, not_or] at unmarked
    rw [List.cons_append, cut, if_neg (Ne.symm unmarked.1), ih unmarked.2]

theorem cut_body_append (unmarked : mark ∉ as) (rest : List A) :
    cut mark (as ++ mark :: rest) = (as ++ [mark]) :: cut mark rest := by
  have whole : as ++ mark :: rest = (as ++ [mark]) ++ rest := by simp
  rw [whole, cut_append (ended_concat as), cut_concat unmarked]
  rfl

@[elab_as_elim]
theorem pieces_induction {motive : List A → Prop} (nil : motive [])
    (last : ∀ body, mark ∉ body → body ≠ [] → motive body)
    (piece : ∀ body rest, mark ∉ body → motive rest → motive (body ++ mark :: rest))
    (as : List A) : motive as := by
  generalize length : as.length = n
  induction n using Nat.strongRecOn generalizing as with
  | ind n ih =>
    by_cases marked : mark ∈ as
    · obtain ⟨body, rest, rfl, unmarked⟩ := List.eq_append_cons_of_mem marked
      have shorter : rest.length < n := by
        rw [← length, List.length_append, List.length_cons]
        omega
      exact piece body rest unmarked (ih rest.length shorter rest rfl)
    · by_cases empty : as = []
      · rw [empty]
        exact nil
      · exact last as marked empty

theorem shape_of_mem_cut (mem : piece ∈ cut mark as) :
    ∃ body, mark ∉ body ∧ (piece = body ++ [mark] ∨ piece = body ∧ body ≠ []) := by
  induction as generalizing piece with
  | nil => cases mem
  | cons a rest ih =>
    rw [cut] at mem
    split at mem
    · cases List.mem_cons.mp mem with
      | inl first => exact ⟨[], List.not_mem_nil, .inl first⟩
      | inr later => exact ih later
    · next other =>
      cases pieces : cut mark rest with
      | nil =>
        rw [pieces] at mem
        rw [List.mem_singleton.mp mem]
        exact ⟨[a], by simpa using Ne.symm other, .inr ⟨rfl, List.cons_ne_nil _ _⟩⟩
      | cons next more =>
        rw [pieces] at ih mem
        cases List.mem_cons.mp mem with
        | inl first =>
          rw [first]
          obtain ⟨body, unmarked, closed | ⟨same, -⟩⟩ := ih List.mem_cons_self
          · exact ⟨a :: body, by simp [unmarked, Ne.symm other], .inl (by rw [closed]; rfl)⟩
          · exact ⟨a :: body, by simp [unmarked, Ne.symm other],
              .inr ⟨by rw [same], List.cons_ne_nil _ _⟩⟩
        | inr later => exact ih (List.mem_cons_of_mem _ later)

theorem ne_nil_of_mem_cut (mem : piece ∈ cut mark as) : piece ≠ [] := by
  obtain ⟨body, -, rfl | ⟨rfl, nonempty⟩⟩ := shape_of_mem_cut mem
  · exact List.append_ne_nil_of_right_ne_nil _ (List.cons_ne_nil _ _)
  · exact nonempty

theorem ended_take (n : Nat) (within : n < (cut mark as).length) :
    Ended mark ((cut mark as).take n).flatten := by
  induction as generalizing n with
  | nil => cases within
  | cons a rest ih =>
    cases n with
    | zero => exact ended_nil
    | succ n =>
      rw [cut] at within ⊢
      split
      · next marked =>
        rw [if_pos marked, List.length_cons] at within
        rw [List.take_succ_cons, List.flatten_cons]
        exact (ended_concat []).append (ih n (Nat.lt_of_succ_lt_succ within))
      · next other =>
        rw [if_neg other] at within
        cases pieces : cut mark rest with
        | nil =>
          rw [pieces] at within
          exact absurd within (by simp)
        | cons piece more =>
          rw [pieces] at within ih
          have earlier := ih (n + 1) within
          rw [List.take_succ_cons, List.flatten_cons] at earlier ⊢
          cases piece with
          | nil => exact absurd rfl (ne_nil_of_mem_cut (pieces ▸ List.mem_cons_self))
          | cons b body => exact ended_cons.mpr earlier

theorem flatten_take_append_drop (as : List A) (n : Nat) :
    ((cut mark as).take n).flatten ++ ((cut mark as).drop n).flatten = as := by
  rw [← List.flatten_append, List.take_append_drop, flatten_cut]

theorem cut_take (as : List A) (n : Nat) :
    cut mark ((cut mark as).take n).flatten = (cut mark as).take n := by
  induction as generalizing n with
  | nil => simp [cut]
  | cons a rest ih =>
    cases n with
    | zero => simp [cut]
    | succ n =>
      rw [cut]
      split
      · rw [List.take_succ_cons, List.flatten_cons, List.singleton_append, cut, if_pos rfl, ih]
      · next other =>
        cases pieces : cut mark rest with
        | nil => simp [cut, other]
        | cons piece more =>
          have later := ih (n + 1)
          rw [pieces, List.take_succ_cons, List.flatten_cons] at later
          rw [List.take_succ_cons, List.flatten_cons, List.cons_append, cut, if_neg other, later]

theorem cut_drop (as : List A) (n : Nat) :
    cut mark ((cut mark as).drop n).flatten = (cut mark as).drop n := by
  by_cases within : n < (cut mark as).length
  · have whole := cut_append (ended_take n within) ((cut mark as).drop n).flatten
    rw [flatten_take_append_drop, cut_take] at whole
    exact List.append_cancel_left (whole.symm.trans (List.take_append_drop n _).symm)
  · rw [List.drop_eq_nil_of_le (Nat.le_of_not_lt within)]
    rfl

theorem take_drop_flatten (as : List A) (first last : Nat) (order : first ≤ last) :
    (as.take ((cut mark as).take last).flatten.length).drop
        ((cut mark as).take first).flatten.length =
      (((cut mark as).take last).drop first).flatten := by
  have upTo : as.take ((cut mark as).take last).flatten.length =
      ((cut mark as).take last).flatten := by
    conv => lhs; arg 2; rw [← @flatten_take_append_drop A mark _ as last]
    exact List.take_left
  have parts : ((cut mark as).take last).flatten =
      ((cut mark as).take first).flatten ++ (((cut mark as).take last).drop first).flatten := by
    rw [← List.flatten_append]
    conv => lhs; rw [← List.take_append_drop first ((cut mark as).take last)]
    rw [List.take_take, Nat.min_eq_left order]
  rw [upTo, parts, List.drop_left]

end Pieces
