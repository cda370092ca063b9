import Mathlib.Data.Nat.Notation
import Mathlib.Data.List.Perm.Basic

universe u v

namespace RoundRobin

variable {A : Type u} {B : Type v}

def turn : ℕ → List (List A) → List A × List (List A)
  | _, [] => ([], [])
  | 0, groups => ([], groups)
  | room + 1, (item :: group) :: groups =>
    let (taken, rest) := turn room groups
    (item :: taken, group :: rest)
  | room + 1, [] :: groups =>
    let (taken, rest) := turn (room + 1) groups
    (taken, [] :: rest)

def turns : ℕ → ℕ → List (List A) → List A
  | 0, _, _ => []
  | fuel + 1, room, groups =>
    match turn room groups with
    | ([], _) => []
    | (taken, rest) => taken ++ turns fuel (room - taken.length) rest

def interleave (limit : ℕ) (groups : List (List A)) : List A := turns limit limit groups

theorem turn_perm (room : ℕ) (groups : List (List A)) :
    ((turn room groups).1 ++ (turn room groups).2.flatten).Perm groups.flatten := by
  fun_induction turn room groups with
  | case1 => exact .refl _
  | case2 => exact .refl _
  | case3 room item group groups taken rest eq ih =>
    rw [eq] at ih
    simp only [List.flatten_cons, List.cons_append]
    refine .cons item ?_
    rw [← List.append_assoc]
    refine (List.perm_append_comm.append_right _).trans ?_
    rw [List.append_assoc]
    exact ih.append_left group
  | case4 room groups taken rest eq ih =>
    rw [eq] at ih
    exact ih

theorem turn_length_le (room : ℕ) (groups : List (List A)) :
    (turn room groups).1.length ≤ room := by
  fun_induction turn room groups with
  | case1 => exact Nat.zero_le _
  | case2 => exact Nat.zero_le _
  | case3 room item group groups taken rest eq ih =>
    rw [eq] at ih
    exact Nat.succ_le_succ ih
  | case4 room groups taken rest eq ih =>
    rw [eq] at ih
    exact ih

theorem flatten_of_turn {room : ℕ} {groups : List (List A)} (room_left : room ≠ 0)
    (nothing : (turn room groups).1 = []) : groups.flatten = [] := by
  fun_induction turn room groups with
  | case1 => rfl
  | case2 => exact absurd rfl room_left
  | case3 => cases nothing
  | case4 room groups taken rest eq ih =>
    rw [eq] at ih
    exact ih room_left nothing

theorem turns_perm {fuel room : ℕ} (enough : room ≤ fuel) (groups : List (List A)) :
    ∃ left, (turns fuel room groups ++ left).Perm groups.flatten ∧
      (turns fuel room groups).length ≤ room ∧
      ((turns fuel room groups).length < room → left = []) := by
  induction fuel generalizing room groups with
  | zero =>
    exact ⟨groups.flatten, .refl _, Nat.zero_le _, fun room_left => absurd room_left (by omega)⟩
  | succ fuel ih =>
    have all := turn_perm room groups
    have fits := turn_length_le room groups
    rw [turns]
    split
    · next rest eq =>
      refine ⟨groups.flatten, .refl _, Nat.zero_le _, fun room_left => ?_⟩
      exact flatten_of_turn (Nat.ne_of_gt room_left) (by rw [eq])
    · next taken rest some eq =>
      rw [eq] at all fits
      simp only at all fits
      have one : taken.length ≠ 0 := fun none => some (List.length_eq_zero_iff.mp none)
      obtain ⟨left, perm, least, full⟩ :=
        @ih (room - taken.length) (by omega) rest
      refine ⟨left, ?_, ?_, fun room_left => full ?_⟩
      · rw [List.append_assoc]
        exact (perm.append_left taken).trans all
      · rw [List.length_append]
        omega
      · rw [List.length_append] at room_left
        omega

theorem interleave_perm (limit : ℕ) (groups : List (List A)) :
    ∃ left, (interleave limit groups ++ left).Perm groups.flatten ∧
      (interleave limit groups).length ≤ limit ∧
      ((interleave limit groups).length < limit → left = []) :=
  turns_perm (Nat.le_refl limit) groups

theorem interleave_length (limit : ℕ) (groups : List (List A)) :
    (interleave limit groups).length = min limit groups.flatten.length := by
  obtain ⟨left, perm, least, full⟩ := interleave_perm limit groups
  have count := perm.length_eq
  rw [List.length_append] at count
  by_cases room_left : (interleave limit groups).length < limit
  · rw [full room_left, List.length_nil] at count
    omega
  · omega

theorem interleave_head {limit : ℕ} (room_left : limit ≠ 0) (item : A) (group : List A)
    (groups : List (List A)) :
    (interleave limit ((item :: group) :: groups)).head? = some item := by
  obtain ⟨room, rfl⟩ := Nat.exists_eq_succ_of_ne_zero room_left
  rfl

theorem turn_map (f : A → B) (room : ℕ) (groups : List (List A)) :
    turn room (groups.map (List.map f)) =
      ((turn room groups).1.map f, (turn room groups).2.map (List.map f)) := by
  fun_induction turn room groups with
  | case1 => simp only [List.map_nil, turn]
  | case2 groups some =>
    cases groups with
    | nil => exact absurd rfl some
    | cons group groups => rfl
  | case3 room item group groups taken rest eq ih =>
    rw [eq] at ih
    simp only [List.map_cons, turn, ih]
  | case4 room groups taken rest eq ih =>
    rw [eq] at ih
    simp only [List.map_cons, List.map_nil, turn, ih]

theorem turns_map (f : A → B) (fuel room : ℕ) (groups : List (List A)) :
    turns fuel room (groups.map (List.map f)) = (turns fuel room groups).map f := by
  induction fuel generalizing room groups with
  | zero => rfl
  | succ fuel ih =>
    rw [turns, turns, turn_map]
    cases eq : turn room groups with
    | mk taken rest =>
      cases taken with
      | nil => rfl
      | cons item taken =>
        simp only [List.map_cons, List.length_cons, List.length_map, ih, List.map_append]

theorem interleave_map (f : A → B) (limit : ℕ) (groups : List (List A)) :
    interleave limit (groups.map (List.map f)) = (interleave limit groups).map f :=
  turns_map f limit limit groups

end RoundRobin
