import Mathlib.Data.List.Basic

universe u v w x

namespace Batched

variable {S : Type u} {A : Type v} {E : Type w} {R : Type x}

abbrev Step (S : Type u) (A : Type v) (E : Type w) (R : Type x) := S → A → Except E R × S

def successes : List (Except E R) → List R
  | [] => []
  | .ok result :: rest => result :: successes rest
  | .error _ :: rest => successes rest

def failures : List (Except E R) → List E
  | [] => []
  | .ok _ :: rest => failures rest
  | .error error :: rest => error :: failures rest

def run (step : Step S A E R) (failFast : Bool) : S → List R → List E → List A → List R × List E
  | _, results, errors, [] => (results, errors)
  | s, results, errors, a :: rest =>
    match step s a with
    | (.ok result, t) => run step failFast t (results ++ [result]) errors rest
    | (.error error, t) =>
      if failFast then (results, errors ++ [error])
      else run step failFast t results (errors ++ [error]) rest

def outcomes (step : Step S A E R) : S → List A → List (Except E R)
  | _, [] => []
  | s, a :: rest => (step s a).1 :: outcomes step (step s a).2 rest

def untilFailure : List (Except E R) → List (Except E R)
  | [] => []
  | .ok result :: rest => .ok result :: untilFailure rest
  | .error error :: _ => [.error error]

def carriedOut (failFast : Bool) (outcomes : List (Except E R)) : List (Except E R) :=
  if failFast then untilFailure outcomes else outcomes

section

variable (outcomes : List (Except E R))

theorem length_successes_failures :
    (successes outcomes).length + (failures outcomes).length = outcomes.length := by
  induction outcomes with
  | nil => rfl
  | cons outcome rest ih =>
    cases outcome <;> simp only [successes, failures, List.length_cons, ← ih] <;> omega

theorem mem_successes {result : R} : result ∈ successes outcomes ↔ .ok result ∈ outcomes := by
  induction outcomes with
  | nil => exact ⟨nofun, nofun⟩
  | cons outcome rest ih => cases outcome <;> simp [successes, ih]

theorem untilFailure_prefix : untilFailure outcomes <+: outcomes := by
  induction outcomes with
  | nil => exact List.prefix_refl _
  | cons outcome rest ih =>
    cases outcome with
    | ok result => exact List.prefix_cons_inj _ |>.mpr ih
    | error error => exact ⟨rest, rfl⟩

theorem carriedOut_prefix (failFast : Bool) : carriedOut failFast outcomes <+: outcomes := by
  cases failFast with
  | true => exact untilFailure_prefix outcomes
  | false => exact List.prefix_refl _

theorem failures_untilFailure : (failures (untilFailure outcomes)).length ≤ 1 := by
  induction outcomes with
  | nil => exact Nat.zero_le _
  | cons outcome rest ih =>
    cases outcome with
    | ok result => exact ih
    | error error => exact Nat.le_refl _

theorem getLast?_untilFailure {error : E} (failed : error ∈ failures (untilFailure outcomes)) :
    (untilFailure outcomes).getLast? = some (.error error) := by
  induction outcomes with
  | nil => cases failed
  | cons outcome rest ih =>
    cases outcome with
    | ok result =>
      have later := ih failed
      rw [untilFailure, List.getLast?_cons, later, Option.getD_some]
    | error other =>
      cases List.mem_singleton.mp failed
      rfl

theorem untilFailure_eq_self (sound : failures (untilFailure outcomes) = []) :
    untilFailure outcomes = outcomes := by
  induction outcomes with
  | nil => rfl
  | cons outcome rest ih =>
    cases outcome with
    | ok result => exact congrArg _ (ih sound)
    | error error => cases sound

theorem carriedOut_eq_self {failFast : Bool}
    (sound : failFast = false ∨ failures (carriedOut failFast outcomes) = []) :
    carriedOut failFast outcomes = outcomes := by
  cases failFast with
  | false => rfl
  | true => exact untilFailure_eq_self outcomes (sound.resolve_left nofun)

end

variable (step : Step S A E R)

theorem run_eq (failFast : Bool) (s : S) (results : List R) (errors : List E) (items : List A) :
    run step failFast s results errors items =
      (results ++ successes (carriedOut failFast (outcomes step s items)),
        errors ++ failures (carriedOut failFast (outcomes step s items))) := by
  induction items generalizing s results errors with
  | nil => cases failFast <;> simp [run, outcomes, carriedOut, untilFailure, successes, failures]
  | cons a rest ih =>
    rw [run, outcomes]
    split
    · next result t eq =>
      rw [ih, eq]
      cases failFast <;> simp [carriedOut, untilFailure, successes, failures]
    · next error t eq =>
      rw [eq]
      cases failFast with
      | true => simp [carriedOut, untilFailure, successes, failures]
      | false =>
        rw [if_neg Bool.false_ne_true, ih]
        simp [carriedOut, successes, failures]

@[simp] theorem length_outcomes (s : S) (items : List A) :
    (outcomes step s items).length = items.length := by
  induction items generalizing s with
  | nil => rfl
  | cons a rest ih => rw [outcomes, List.length_cons, List.length_cons, ih]

theorem getElem?_outcomes (leads : List A → S → Prop) (answer : List A → A → Except E R)
    (sound : ∀ done s a, leads done s →
      (step s a).1 = answer done a ∧ leads (done ++ [a]) (step s a).2)
    {done : List A} {s : S} (led : leads done s) (items : List A) (index : Nat) :
    (outcomes step s items)[index]? =
      items[index]?.map (answer (done ++ items.take index)) := by
  induction items generalizing done s index with
  | nil => rfl
  | cons a rest ih =>
    obtain ⟨here, later⟩ := sound done s a led
    cases index with
    | zero => simp [outcomes, here]
    | succ index => simp [outcomes, ih later index]

end Batched
