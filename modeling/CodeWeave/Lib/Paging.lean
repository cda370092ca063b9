import Mathlib.Data.List.Basic

universe u

namespace Paging

variable {A : Type u} (size : A → Nat)

def fill (budget : Nat) : Nat → List A → List A × List A
  | _, [] => ([], [])
  | used, item :: rest =>
    if used ≠ 0 ∧ budget < used + size item then ([], item :: rest)
    else if budget < size item then ([item], rest)
    else
      let (taken, left) := fill budget (used + size item) rest
      (item :: taken, left)

def page (budget : Nat) (items : List A) : List A × List A := fill size budget 0 items

theorem fill_append (budget used : Nat) (items : List A) :
    (fill size budget used items).1 ++ (fill size budget used items).2 = items := by
  induction items generalizing used with
  | nil => rfl
  | cons item rest ih =>
    rw [fill]
    split
    · rfl
    · split
      · rfl
      · exact congrArg (item :: ·) (ih (used + size item))

theorem page_append (budget : Nat) (items : List A) :
    (page size budget items).1 ++ (page size budget items).2 = items :=
  fill_append size budget 0 items

theorem page_ne_nil (budget : Nat) {items : List A} (some_left : items ≠ []) :
    (page size budget items).1 ≠ [] := by
  cases items with
  | nil => exact absurd rfl some_left
  | cons item rest =>
    rw [page, fill, if_neg fun full => full.1 rfl]
    split
    · exact List.cons_ne_nil _ _
    · exact List.cons_ne_nil _ _

inductive Pages (budgets : Nat → Nat) : Nat → List A → List (List A) → Prop
  | last {n : Nat} {items : List A} (done : (page size (budgets n) items).2 = []) :
      Pages budgets n items [(page size (budgets n) items).1]
  | next {n : Nat} {items : List A} {pages : List (List A)}
      (more : (page size (budgets n) items).2 ≠ [])
      (rest : Pages budgets (n + 1) (page size (budgets n) items).2 pages) :
      Pages budgets n items ((page size (budgets n) items).1 :: pages)

theorem exists_pages (budgets : Nat → Nat) (n : Nat) (items : List A) :
    ∃ pages, Pages size budgets n items pages := by
  induction count : items.length using Nat.strongRecOn generalizing n items with
  | ind count ih =>
    by_cases done : (page size (budgets n) items).2 = []
    · exact ⟨_, .last done⟩
    · have parts := congrArg List.length (page_append size (budgets n) items)
      have nonempty : items ≠ [] := by
        rintro rfl
        exact done rfl
      have progress := List.length_pos_iff.mpr (page_ne_nil size (budgets n) nonempty)
      rw [List.length_append] at parts
      obtain ⟨pages, rest⟩ := ih _ (by omega) (n + 1) (page size (budgets n) items).2 rfl
      exact ⟨_, .next done rest⟩

theorem Pages.flatten {budgets : Nat → Nat} {n : Nat} {items : List A} {pages : List (List A)}
    (h : Pages size budgets n items pages) : pages.flatten = items := by
  induction h with
  | @last n items done =>
    have parts := page_append size (budgets n) items
    rw [done, List.append_nil] at parts
    simpa using parts
  | @next n items pages more rest ih =>
    rw [List.flatten_cons, ih, page_append]

end Paging
