import Mathlib.Data.Nat.Notation
import Mathlib.Logic.Function.Basic

/-! One permit among any number of parties: it is free, reserved for a party that is yet
to come, or held by one party. -/

universe u v

namespace Permit

variable {I : Type u} {L : Type v}

structure Pool (I : Type u) (L : Type v) where
  free : ℕ
  reserved : ℕ
  place : I → Option L

variable (holds : L → Prop)

/-- A party enters without the permit or by one that is reserved, and then moves on, takes
the permit or gives it back. Where a party moves it may lose the permit for good. -/
inductive Step [DecidableEq I] : Pool I L → Pool I L → Prop
  | reserve {pool : Pool I L} (free : pool.free ≠ 0) :
      Step pool ⟨pool.free - 1, pool.reserved + 1, pool.place⟩
  | enter {pool : Pool I L} {i : I} {a : L} (unheld : ¬holds a) :
      Step pool ⟨pool.free, pool.reserved, Function.update pool.place i (some a)⟩
  | seat {pool : Pool I L} {i : I} {a : L} (reserved : pool.reserved ≠ 0) :
      Step pool ⟨pool.free, pool.reserved - 1, Function.update pool.place i (some a)⟩
  | move {pool : Pool I L} {i : I} {a b : L} (here : pool.place i = some a)
      (kept : holds b → holds a) :
      Step pool ⟨pool.free, pool.reserved, Function.update pool.place i (some b)⟩
  | take {pool : Pool I L} {i : I} {b : L} (free : pool.free ≠ 0) :
      Step pool ⟨pool.free - 1, pool.reserved, Function.update pool.place i (some b)⟩
  | give {pool : Pool I L} {i : I} {a b : L} (here : pool.place i = some a) (held : holds a)
      (unheld : ¬holds b) :
      Step pool ⟨pool.free + 1, pool.reserved, Function.update pool.place i (some b)⟩

structure Exclusive (pool : Pool I L) : Prop where
  one : pool.free + pool.reserved ≤ 1
  taken : ∀ i a, pool.place i = some a → holds a → pool.free = 0 ∧ pool.reserved = 0
  unique : ∀ i j a b, pool.place i = some a → pool.place j = some b → holds a → holds b → i = j

variable {holds} [DecidableEq I]

theorem Exclusive.update {pool : Pool I L} (exclusive : Exclusive holds pool) {i : I} {b : L}
    (kept : holds b → ∃ a, pool.place i = some a ∧ holds a) :
    Exclusive holds ⟨pool.free, pool.reserved, Function.update pool.place i (some b)⟩ := by
  have before {j : I} {c : L} (at_j : Function.update pool.place i (some b) j = some c)
      (held : holds c) : ∃ a, pool.place j = some a ∧ holds a := by
    by_cases same : j = i
    · subst same
      rw [Function.update_self, Option.some.injEq] at at_j
      exact kept (at_j ▸ held)
    · rw [Function.update_of_ne same] at at_j
      exact ⟨c, at_j, held⟩
  refine ⟨exclusive.one, fun j c at_j held => ?_, fun j k c d at_j at_k held_c held_d => ?_⟩
  · obtain ⟨a, here, held⟩ := before at_j held
    exact exclusive.taken j a here held
  · obtain ⟨a, here, held⟩ := before at_j held_c
    obtain ⟨a', here', held'⟩ := before at_k held_d
    exact exclusive.unique j k a a' here here' held held'

theorem Exclusive.give_to {pool : Pool I L} {i : I} {b : L}
    (unheld : ∀ j a, pool.place j = some a → ¬holds a) :
    Exclusive holds ⟨0, 0, Function.update pool.place i (some b)⟩ := by
  have only {j : I} {c : L} (at_j : Function.update pool.place i (some b) j = some c)
      (held : holds c) : j = i := by
    by_contra other
    rw [Function.update_of_ne other] at at_j
    exact unheld j c at_j held
  exact ⟨Nat.zero_le 1, fun _ _ _ _ => ⟨rfl, rfl⟩, fun j k c d at_j at_k held_c held_d =>
    (only at_j held_c).trans (only at_k held_d).symm⟩

theorem Exclusive.step {pool next : Pool I L} (exclusive : Exclusive holds pool)
    (step : Step holds pool next) : Exclusive holds next := by
  have one := exclusive.one
  have unheld (available : pool.free ≠ 0 ∨ pool.reserved ≠ 0) (j : I) (a : L)
      (here : pool.place j = some a) : ¬holds a := by
    intro held
    have taken := exclusive.taken j a here held
    omega
  cases step with
  | reserve free =>
    exact ⟨by simp only; omega, fun i a here held => absurd held (unheld (.inl free) i a here),
      exclusive.unique⟩
  | enter none => exact exclusive.update fun held => absurd held none
  | seat reserved =>
    have empty : pool.free = 0 ∧ pool.reserved - 1 = 0 := by omega
    rw [empty.1, empty.2]
    exact Exclusive.give_to (unheld (.inr reserved))
  | @move i a b here kept => exact exclusive.update fun held => ⟨a, here, kept held⟩
  | take free =>
    have empty : pool.free - 1 = 0 ∧ pool.reserved = 0 := by omega
    rw [empty.1, empty.2]
    exact Exclusive.give_to (unheld (.inl free))
  | @give i a b here held none =>
    have taken := exclusive.taken i a here held
    have after (j : I) (c : L) (at_j : Function.update pool.place i (some b) j = some c) :
        ¬holds c := by
      intro held_c
      by_cases same : j = i
      · subst same
        rw [Function.update_self, Option.some.injEq] at at_j
        exact none (at_j ▸ held_c)
      · rw [Function.update_of_ne same] at at_j
        exact same (exclusive.unique j i c a at_j here held_c held)
    exact ⟨by simp only; omega, fun j c at_j held_c => absurd held_c (after j c at_j),
      fun j k c d at_j _ held_c _ => absurd held_c (after j c at_j)⟩

end Permit
