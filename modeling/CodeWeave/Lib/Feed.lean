import Mathlib.Data.List.Infix
import Mathlib.Logic.Relation

/-! A log of dated entries and one reader that follows it by a cursor.  A batch of
entries is staged when the clock ticks and put into the log later; the log may drop
entries again. -/

universe u

structure Feed (R : Type u) where
  clock : Nat
  log : List R
  staged : List R
  cursor : Nat
  deliveries : List (List R)

namespace Feed

variable {R : Type u} (date : R → Nat)

/-- A reader is only served while nothing is staged, all there is past its cursor,
and its cursor moves up to the clock. -/
inductive Step : Feed R → Feed R → Prop
  | publish {feed : Feed R} {batch : List R} (free : feed.staged = [])
      (dated : ∀ r ∈ batch, date r = feed.clock + 1) :
      Step feed { feed with clock := feed.clock + 1, staged := batch }
  | append {feed : Feed R} {log : List R} (kept : log <:+ feed.log ++ feed.staged) :
      Step feed { feed with log := log, staged := [] }
  | deliver {feed : Feed R} {batch : List R} (free : feed.staged = [])
      (whole : ∀ r, r ∈ batch ↔ r ∈ feed.log ∧ feed.cursor < date r) :
      Step feed { feed with cursor := feed.clock, deliveries := feed.deliveries ++ [batch] }

abbrev Steps : Feed R → Feed R → Prop := Relation.ReflTransGen (Step date)

/-- The reader has had each entry it is past once, and none that it is not. -/
structure Follows (first : Nat) (feed : Feed R) : Prop where
  dated : ∀ r ∈ feed.log, date r ≤ feed.clock
  staged : ∀ r ∈ feed.staged, date r = feed.clock
  unserved : feed.deliveries = [] → feed.cursor = first
  served : feed.deliveries ≠ [] → feed.cursor ≤ feed.clock
  ahead : ∀ r ∈ feed.staged, first < date r → feed.cursor < date r
  past : ∀ batch ∈ feed.deliveries, ∀ r ∈ batch, date r ≤ feed.cursor
  complete : ∀ r ∈ feed.log, first < date r → date r ≤ feed.cursor →
    ∃ batch ∈ feed.deliveries, r ∈ batch
  once : ∀ (i j : Nat) (batch other : List R), feed.deliveries[i]? = some batch →
    feed.deliveries[j]? = some other → ∀ r ∈ batch, r ∈ other → i = j

variable {date} {first : Nat} {feed next : Feed R}

theorem getElem?_concat {A : Type u} {as : List A} {a b : A} {i : Nat}
    (h : (as ++ [a])[i]? = some b) : as[i]? = some b ∨ i = as.length ∧ b = a := by
  rw [List.getElem?_append] at h
  split at h
  · exact .inl h
  · rw [List.getElem?_singleton] at h
    split at h
    · cases h
      exact .inr ⟨by omega, rfl⟩
    · cases h

theorem Follows.publish {batch : List R} (follows : Follows date first feed)
    (dated : ∀ r ∈ batch, date r = feed.clock + 1) :
    Follows date first { feed with clock := feed.clock + 1, staged := batch } where
  dated r mem := Nat.le_succ_of_le (follows.dated r mem)
  staged := dated
  unserved := follows.unserved
  served some := Nat.le_succ_of_le (follows.served some)
  ahead r mem late := by
    have now := dated r mem
    by_cases none : feed.deliveries = []
    · have cursor := follows.unserved none
      simp only
      omega
    · have cursor := follows.served none
      simp only
      omega
  past := follows.past
  complete := follows.complete
  once := follows.once

theorem Follows.append {log : List R} (follows : Follows date first feed)
    (kept : log <:+ feed.log ++ feed.staged) :
    Follows date first { feed with log := log, staged := [] } where
  dated r mem := by
    cases List.mem_append.mp (kept.subset mem) with
    | inl before => exact follows.dated r before
    | inr now => exact Nat.le_of_eq (follows.staged r now)
  staged r mem := by cases mem
  unserved := follows.unserved
  served := follows.served
  ahead r mem := by cases mem
  past := follows.past
  complete r mem late passed := by
    cases List.mem_append.mp (kept.subset mem) with
    | inl before => exact follows.complete r before late passed
    | inr now => exact absurd passed (Nat.not_le.mpr (follows.ahead r now late))
  once := follows.once

theorem Follows.deliver {batch : List R} (follows : Follows date first feed)
    (free : feed.staged = [])
    (whole : ∀ r, r ∈ batch ↔ r ∈ feed.log ∧ feed.cursor < date r) :
    Follows date first
      { feed with cursor := feed.clock, deliveries := feed.deliveries ++ [batch] } := by
  have fresh : ∀ (i : Nat) (old : List R), feed.deliveries[i]? = some old → ∀ r ∈ old, r ∉ batch := by
    intro i old at_i r inOld inBatch
    have before := follows.past old (List.mem_of_getElem? at_i) r inOld
    have after := ((whole r).mp inBatch).2
    omega
  constructor
  · exact follows.dated
  · exact follows.staged
  · intro none
    simp at none
  · exact fun _ => Nat.le_refl _
  · intro r mem
    rw [free] at mem
    cases mem
  · intro served mem r inServed
    cases List.mem_append.mp mem with
    | inl before =>
      have cursor := follows.served (List.ne_nil_of_mem before)
      have past := follows.past served before r inServed
      simp only
      omega
    | inr now =>
      rw [List.mem_singleton.mp now] at inServed
      exact follows.dated r ((whole r).mp inServed).1
  · intro r mem late passed
    by_cases seen : date r ≤ feed.cursor
    · obtain ⟨served, before, inServed⟩ := follows.complete r mem late seen
      exact ⟨served, List.mem_append_left _ before, inServed⟩
    · exact ⟨batch, by simp, (whole r).mpr ⟨mem, Nat.not_le.mp seen⟩⟩
  · intro i j served other at_i at_j r inServed inOther
    cases getElem?_concat at_i with
    | inl earlier =>
      cases getElem?_concat at_j with
      | inl earlier' => exact follows.once i j served other earlier earlier' r inServed inOther
      | inr last =>
        rw [last.2] at inOther
        exact absurd inOther (fresh i served earlier r inServed)
    | inr last =>
      cases getElem?_concat at_j with
      | inl earlier =>
        rw [last.2] at inServed
        exact absurd inServed (fresh j other earlier r inOther)
      | inr last' => rw [last.1, last'.1]

theorem Follows.step (follows : Follows date first feed) (step : Step date feed next) :
    Follows date first next := by
  cases step with
  | publish free dated => exact follows.publish dated
  | append kept => exact follows.append kept
  | deliver free whole => exact follows.deliver free whole

theorem Follows.steps (follows : Follows date first feed) (steps : Steps date feed next) :
    Follows date first next := by
  induction steps with
  | refl => exact follows
  | tail _ step ih => exact ih.step step

theorem Follows.exactly_once (follows : Follows date first feed) {r : R} (mem : r ∈ feed.log)
    (late : first < date r) (passed : date r ≤ feed.cursor) :
    ∃! i : Nat, ∃ batch : List R, feed.deliveries[i]? = some batch ∧ r ∈ batch := by
  obtain ⟨batch, inDeliveries, inBatch⟩ := follows.complete r mem late passed
  obtain ⟨i, at_i⟩ := List.mem_iff_getElem?.mp inDeliveries
  refine ⟨i, ⟨batch, at_i, inBatch⟩, ?_⟩
  rintro j ⟨other, at_j, inOther⟩
  exact follows.once j i other batch at_j at_i r inOther inBatch

end Feed
