import Mathlib.Data.List.Basic

universe u v

namespace InTurn

variable {A : Type u} {S : Type v}

abbrev Shell (A : Type u) (S : Type v) := A → S → Bool × S

def andThen (first second : S → Bool × S) (s : S) : Bool × S :=
  match first s with
  | (true, t) => second t
  | (false, t) => (false, t)

def inTurn (shell : Shell A S) : List A → S → Bool × S
  | [], s => (true, s)
  | command :: rest, s => andThen (shell command) (inTurn shell rest) s

inductive Succeeds (shell : Shell A S) : S → List A → S → Prop
  | nil (s : S) : Succeeds shell s [] s
  | cons {s t u : S} {command : A} {rest : List A} :
    shell command s = (true, t) → Succeeds shell t rest u → Succeeds shell s (command :: rest) u

variable {shell : Shell A S}

theorem andThen_eq_true {first second : S → Bool × S} {s u : S} :
    andThen first second s = (true, u) ↔ ∃ t, first s = (true, t) ∧ second t = (true, u) := by
  rw [andThen]
  split
  · next t eq => simp [eq]
  · next t eq => simp [eq]

theorem inTurn_eq_true {commands : List A} {s u : S} :
    inTurn shell commands s = (true, u) ↔ Succeeds shell s commands u := by
  induction commands generalizing s with
  | nil =>
    constructor
    · intro same
      cases same
      exact .nil _
    · rintro ⟨⟩
      rfl
  | cons command rest ih =>
    rw [inTurn, andThen_eq_true]
    constructor
    · rintro ⟨t, here, later⟩
      exact .cons here (ih.mp later)
    · intro succeeds
      cases succeeds with
      | cons here later => exact ⟨_, here, ih.mpr later⟩

end InTurn
