import Mathlib.Data.List.Basic

/-! A list taken in parts, each of the items that fit a budget.  A part is empty where the
budget is smaller than the next item, and then nothing has been taken. -/

universe u

namespace Cuts

variable {A : Type u} (size : A → Nat)

def total : List A → Nat
  | [] => 0
  | a :: rest => size a + total rest

def fit : Nat → List A → List A
  | _, [] => []
  | budget, a :: rest => if size a ≤ budget then a :: fit (budget - size a) rest else []

def rest (budget : Nat) (items : List A) : List A := items.drop (fit size budget items).length

def left (budgets : Nat → Nat) (items : List A) : Nat → List A
  | 0 => items
  | n + 1 => rest size (budgets n) (left budgets items n)

def Stuck (budgets : Nat → Nat) (items : List A) (n : Nat) : Prop :=
  ∃ a more, left size budgets items n = a :: more ∧ budgets n < size a

variable {size} {budgets : Nat → Nat} {items : List A}

theorem total_append (first second : List A) :
    total size (first ++ second) = total size first + total size second := by
  induction first with
  | nil => exact (Nat.zero_add _).symm
  | cons a rest ih => rw [List.cons_append, total, total, ih, Nat.add_assoc]

theorem prefixed_fit (budget : Nat) (items : List A) : fit size budget items <+: items := by
  induction items generalizing budget with
  | nil => exact List.prefix_rfl
  | cons a rest ih =>
    rw [fit]
    split
    · exact List.cons_prefix_cons.mpr ⟨rfl, ih _⟩
    · exact List.nil_prefix

theorem fit_append_rest (budget : Nat) (items : List A) :
    fit size budget items ++ rest size budget items = items :=
  List.prefix_iff_eq_append.mp (prefixed_fit budget items)

theorem total_fit_le (budget : Nat) (items : List A) :
    total size (fit size budget items) ≤ budget := by
  induction items generalizing budget with
  | nil => exact Nat.zero_le budget
  | cons a rest ih =>
    rw [fit]
    split
    · next fits =>
      rw [total]
      exact Nat.le_trans (Nat.add_le_add_left (ih _) _) (Nat.le_of_eq (Nat.add_sub_of_le fits))
    · exact Nat.zero_le budget

theorem fit_eq_self {budget : Nat} (within : total size items ≤ budget) :
    fit size budget items = items := by
  induction items generalizing budget with
  | nil => rfl
  | cons a rest ih =>
    rw [total] at within
    rw [fit, if_pos (Nat.le_trans (Nat.le_add_right ..) within), ih (by omega)]

theorem fit_append (first second : List A) (budget : Nat) :
    fit size (total size first + budget) (first ++ second) = first ++ fit size budget second := by
  induction first with
  | nil => rw [total, Nat.zero_add]; rfl
  | cons a rest ih =>
    have remaining : total size (a :: rest) + budget - size a = total size rest + budget := by
      rw [total, Nat.add_assoc, Nat.add_sub_cancel_left]
    rw [List.cons_append, fit, if_pos (by rw [total]; omega), remaining, ih, List.cons_append]

theorem fit_eq_nil {budget : Nat} {a : A} {more : List A} (large : budget < size a) :
    fit size budget (a :: more) = [] := by
  rw [fit, if_neg (Nat.not_le.mpr large)]

theorem rest_eq_self {budget : Nat} {a : A} {more : List A} (large : budget < size a) :
    rest size budget (a :: more) = a :: more := by
  rw [rest, fit_eq_nil large]
  rfl

theorem length_rest_lt {budget : Nat} (nonempty : items ≠ [])
    (fits : ∀ a more, items = a :: more → size a ≤ budget) :
    (rest size budget items).length < items.length := by
  obtain ⟨a, more, rfl⟩ := List.exists_cons_of_ne_nil nonempty
  rw [rest, fit, if_pos (fits a more rfl), List.length_cons, List.length_drop, List.length_cons]
  omega

theorem left_succ (budgets : Nat → Nat) (items : List A) (n : Nat) :
    left size budgets items (n + 1) = rest size (budgets n) (left size budgets items n) := rfl

theorem left_eq_nil {n m : Nat} (done : left size budgets items n = []) (later : n ≤ m) :
    left size budgets items m = [] := by
  induction later with
  | refl => exact done
  | step _ ih => rw [left_succ, ih]; rfl

theorem not_stuck_of_left_eq_nil {n m : Nat} (done : left size budgets items n = [])
    (later : n ≤ m) : ¬Stuck size budgets items m := by
  rintro ⟨a, more, remaining, _⟩
  rw [left_eq_nil done later] at remaining
  cases remaining

theorem fits_of_not_stuck {n : Nat} (free : ¬Stuck size budgets items n) (a : A) (more : List A)
    (remaining : left size budgets items n = a :: more) : size a ≤ budgets n :=
  Nat.not_lt.mp fun small => free ⟨a, more, remaining, small⟩

theorem left_suffix (n : Nat) : left size budgets items n <:+ items := by
  induction n with
  | zero => exact List.suffix_rfl
  | succ n ih => exact (List.drop_suffix _ _).trans ih

theorem not_stuck_of_fits {n : Nat} (fits : ∀ a ∈ items, size a ≤ budgets n) :
    ¬Stuck size budgets items n := by
  rintro ⟨a, more, remaining, small⟩
  have member : a ∈ items := (left_suffix n).subset (remaining ▸ List.mem_cons_self)
  exact absurd (fits a member) (Nat.not_le.mpr small)

end Cuts
