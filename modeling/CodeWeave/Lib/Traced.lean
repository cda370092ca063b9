import Mathlib.Data.List.Basic

universe u v

structure Traced (E T A : Type u) where
  result : Except E A
  trace : List T

namespace Traced

variable {E T A B : Type u}

protected def pure (a : A) : Traced E T A := ⟨.ok a, []⟩

protected def bind (m : Traced E T A) (f : A → Traced E T B) : Traced E T B :=
  match m.result with
  | .ok a => ⟨(f a).result, m.trace ++ (f a).trace⟩
  | .error error => ⟨.error error, m.trace⟩

instance : Monad (Traced E T) where
  pure := Traced.pure
  bind := Traced.bind

def lift (result : Except E A) : Traced E T A := ⟨result, []⟩

def act (done : T) (result : Except E A) : Traced E T A := ⟨result, [done]⟩

theorem bind_result (m : Traced E T A) (f : A → Traced E T B) :
    (m >>= f).result = m.result.bind fun a => (f a).result := by
  show (Traced.bind m f).result = _
  rw [Traced.bind]
  cases m.result <;> rfl

theorem bind_trace_of_ok {m : Traced E T A} {a : A} (ok : m.result = .ok a)
    (f : A → Traced E T B) : (m >>= f).trace = m.trace ++ (f a).trace := by
  show (Traced.bind m f).trace = _
  rw [Traced.bind, ok]

theorem bind_trace_of_error {m : Traced E T A} {error : E} (failed : m.result = .error error)
    (f : A → Traced E T B) : (m >>= f).trace = m.trace := by
  show (Traced.bind m f).trace = _
  rw [Traced.bind, failed]

theorem mem_bind {m : Traced E T A} {done : T} (mem : done ∈ m.trace) (f : A → Traced E T B) :
    done ∈ (m >>= f).trace := by
  cases result : m.result with
  | ok a =>
    rw [bind_trace_of_ok result]
    exact List.mem_append_left _ mem
  | error error => rwa [bind_trace_of_error result]

def All (P : T → Prop) (m : Traced E T A) : Prop := ∀ done ∈ m.trace, P done

variable {P : T → Prop}

theorem all_pure (a : A) : (pure a : Traced E T A).All P := nofun

theorem all_lift (result : Except E A) : (lift result : Traced E T A).All P := nofun

theorem all_act {done : T} (holds : P done) (result : Except E A) : (act done result).All P :=
  fun _ mem => List.mem_singleton.mp mem ▸ holds

theorem all_bind {m : Traced E T A} {f : A → Traced E T B} (first : m.All P)
    (rest : ∀ a, m.result = .ok a → (f a).All P) : (m >>= f).All P := by
  intro done mem
  cases result : m.result with
  | ok a =>
    rw [bind_trace_of_ok result] at mem
    rcases List.mem_append.mp mem with before | after
    · exact first done before
    · exact rest a result done after
  | error error =>
    rw [bind_trace_of_error result] at mem
    exact first done mem

end Traced
