import Mathlib.Init

/-! Pre- and postconditions of computations that read and write a state and may
fail, where what a failure leaves of the state matters too. -/

universe u

namespace Attempts

variable {E S A B : Type u}

/-- `Q` of a success and the state it leaves, `F` of a failure and the state it
leaves. -/
def Ends (Q : A → S → Prop) (F : E → S → Prop) : EStateM.Result E S A → Prop
  | .ok a s => Q a s
  | .error e s => F e s

def outcome : EStateM.Result E S A → Except E A
  | .ok a _ => .ok a
  | .error e _ => .error e

def left : EStateM.Result E S A → S
  | .ok _ s => s
  | .error _ s => s

theorem eq_ok_of_outcome {r : EStateM.Result E S A} {a : A} (h : outcome r = .ok a) :
    r = .ok a (left r) := by
  cases r with
  | ok b s =>
    cases h
    rfl
  | error e s => cases h

def Spec (P : S → Prop) (m : EStateM E S A) (Q : A → S → Prop) (F : E → S → Prop) : Prop :=
  ∀ s, P s → Ends Q F (m s)

/-- `m` leaves `I` as it is, whether it succeeds or fails. -/
def Keeps (I : S → Prop) (m : EStateM E S A) : Prop := Spec I m (fun _ => I) (fun _ => I)

variable {P I : S → Prop} {Q : A → S → Prop} {F : E → S → Prop} {m : EStateM E S A}

theorem Spec.ok {s t : S} {a : A} (h : Spec P m Q F) (start : P s) (eq : m s = .ok a t) : Q a t := by
  have ends := h s start
  rwa [eq] at ends

theorem Spec.error {s t : S} {e : E} (h : Spec P m Q F) (start : P s) (eq : m s = .error e t) :
    F e t := by
  have ends := h s start
  rwa [eq] at ends

theorem Spec.mono {P' : S → Prop} {Q' : A → S → Prop} {F' : E → S → Prop} (h : Spec P m Q F)
    (pre : ∀ s, P' s → P s) (post : ∀ a s, Q a s → Q' a s) (failed : ∀ e s, F e s → F' e s) :
    Spec P' m Q' F' := by
  intro s start
  have ends := h s (pre s start)
  cases eq : m s with
  | ok a t => exact post a t (by rwa [eq] at ends)
  | error e t => exact failed e t (by rwa [eq] at ends)

theorem Spec.bind {f : A → EStateM E S B} {R : B → S → Prop} (h : Spec P m Q F)
    (next : ∀ a, Spec (Q a) (f a) R F) : Spec P (m >>= f) R F := by
  intro s start
  have ends := h s start
  change Ends R F (EStateM.bind m f s)
  unfold EStateM.bind
  cases eq : m s with
  | ok a t => exact next a t (by rwa [eq] at ends)
  | error e t => exact (by rwa [eq] at ends : F e t)

theorem Spec.get : Spec P (get : EStateM E S S) (fun now s => P s ∧ s = now) F :=
  fun _ start => ⟨start, rfl⟩

theorem Spec.ofExcept {x : Except E A} :
    Spec (fun s => (∀ a, x = .ok a → Q a s) ∧ ∀ e, x = .error e → F e s)
      (MonadExcept.ofExcept x : EStateM E S A) Q F := by
  intro s start
  cases x with
  | ok a => exact start.1 a rfl
  | error e => exact start.2 e rfl

theorem Keeps.pure {a : A} : Keeps I (Pure.pure a : EStateM E S A) :=
  fun _ start => start

theorem Keeps.throw {e : E} : Keeps I (throw e : EStateM E S A) := fun _ start => start

theorem Keeps.bind {f : A → EStateM E S B} (h : Keeps I m) (next : ∀ a, Keeps I (f a)) :
    Keeps I (m >>= f) :=
  Spec.bind h next

theorem Keeps.get : Keeps I (get : EStateM E S S) := fun _ start => start

theorem Keeps.modify {f : S → S} (kept : ∀ s, I s → I (f s)) :
    Keeps I (modify f : EStateM E S PUnit) := kept

theorem Keeps.ofExcept {x : Except E A} : Keeps I (MonadExcept.ofExcept x : EStateM E S A) :=
  Spec.ofExcept.mono (fun _ start => ⟨fun _ _ => start, fun _ _ => start⟩) (fun _ _ kept => kept)
    fun _ _ kept => kept

end Attempts
