import Mathlib.Data.List.Basic

universe u

namespace Substitution

variable {A : Type u}

inductive Substituted (found replacement : List A) : Nat → List A → List A → Prop
  | kept (text : List A) : Substituted found replacement 0 text text
  | replaced {count : Nat} (piece : List A) {before after : List A}
      (later : Substituted found replacement count before after) :
      Substituted found replacement (count + 1) (piece ++ found ++ before)
        (piece ++ replacement ++ after)

variable {found replacement before after : List A} {count : Nat}

theorem Substituted.cons (substituted : Substituted found replacement count before after) (a : A) :
    Substituted found replacement count (a :: before) (a :: after) := by
  cases substituted with
  | kept => exact .kept _
  | replaced piece later => exact .replaced (a :: piece) later

theorem Substituted.matched (substituted : Substituted found replacement count before after) :
    Substituted found replacement (count + 1) (found ++ before) (replacement ++ after) :=
  .replaced [] substituted

theorem Substituted.eq_of_zero (substituted : Substituted found replacement 0 before after) :
    after = before := by
  cases substituted
  rfl

theorem Substituted.occurs (substituted : Substituted found replacement (count + 1) before after) :
    found <:+: before := by
  cases substituted with
  | replaced piece later => exact ⟨piece, _, rfl⟩

theorem Substituted.eq_of_same (substituted : Substituted found found count before after) :
    after = before := by
  induction substituted with
  | kept => rfl
  | replaced piece later ih => rw [ih]

theorem Substituted.notMem (substituted : Substituted found replacement count before after) {a : A}
    (free : a ∉ before) (free' : a ∉ replacement) : a ∉ after := by
  induction substituted with
  | kept => exact free
  | replaced piece later ih =>
    rw [List.mem_append, List.mem_append, not_or, not_or] at free ⊢
    exact ⟨⟨free.1.1, free'⟩, ih free.2⟩

theorem match_induction {pattern : List A} (nonempty : pattern ≠ []) {motive : List A → Prop}
    (nil : motive []) (found : ∀ rest, motive rest → motive (pattern ++ rest))
    (other : ∀ a rest, ¬pattern <+: a :: rest → motive rest → motive (a :: rest))
    (text : List A) : motive text := by
  generalize size : text.length = length
  induction length using Nat.strongRecOn generalizing text with
  | ind length ih =>
    subst size
    cases text with
    | nil => exact nil
    | cons a rest =>
      by_cases here : pattern <+: a :: rest
      · obtain ⟨later, eq⟩ := here
        rw [← eq] at ih ⊢
        have positive := List.length_pos_of_ne_nil nonempty
        refine found later (ih _ ?_ later rfl)
        rw [List.length_append]
        omega
      · exact other a rest here (ih _ (Nat.lt_succ_self _) rest rfl)

end Substitution
