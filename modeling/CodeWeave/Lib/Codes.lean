import Mathlib.Data.List.Basic

/-! Self-delimiting codes: what is put in front of any text is taken off it again. -/

universe u v

structure Code (A : Type u) where
  put : A → List Char
  take : List Char → Option (A × List Char)
  take_put : ∀ a rest, take (put a ++ rest) = some (a, rest)

namespace Code

variable {A : Type u} {B : Type v}

def char : Code Char where
  put c := [c]
  take
    | [] => none
    | c :: rest => some (c, rest)
  take_put _ _ := rfl

def bool : Code Bool where
  put b := [if b then '1' else '0']
  take
    | [] => none
    | c :: rest => some (c = '1', rest)
  take_put b rest := by cases b <;> simp

def takeNat : List Char → Option (Nat × List Char)
  | '1' :: rest => (takeNat rest).map fun (n, rest) => (n + 1, rest)
  | '0' :: rest => some (0, rest)
  | _ => none

def nat : Code Nat where
  put n := List.replicate n '1' ++ ['0']
  take := takeNat
  take_put n rest := by
    induction n with
    | zero => rfl
    | succ n ih =>
      rw [List.replicate_succ, List.cons_append, List.cons_append, takeNat, ih]
      rfl

def pair (first : Code A) (second : Code B) : Code (A × B) where
  put ab := first.put ab.1 ++ second.put ab.2
  take text := (first.take text).bind fun (a, rest) =>
    (second.take rest).map fun (b, rest) => ((a, b), rest)
  take_put ab rest := by
    simp [first.take_put, second.take_put]

def option (code : Code A) : Code (Option A) where
  put
    | none => bool.put false
    | some a => bool.put true ++ code.put a
  take text := (bool.take text).bind fun (present, rest) =>
    if present then (code.take rest).map fun (a, rest) => (some a, rest) else some (none, rest)
  take_put a rest := by
    cases a with
    | none => simp [bool.take_put]
    | some a => simp [bool.take_put, code.take_put]

def takeMany (code : Code A) : Nat → List Char → Option (List A × List Char)
  | 0, text => some ([], text)
  | n + 1, text => (code.take text).bind fun (a, rest) =>
    (takeMany code n rest).map fun (as, rest) => (a :: as, rest)

theorem takeMany_put (code : Code A) (as : List A) (rest : List Char) :
    code.takeMany as.length (as.flatMap code.put ++ rest) = some (as, rest) := by
  induction as with
  | nil => rfl
  | cons a as ih =>
    simp [takeMany, code.take_put, ih]

def list (code : Code A) : Code (List A) where
  put as := nat.put as.length ++ as.flatMap code.put
  take text := (nat.take text).bind fun (n, rest) => code.takeMany n rest
  take_put as rest := by
    simp [nat.take_put, takeMany_put]

/-- The code of what can be told from its parts. -/
def ofParts (code : Code B) (parts : A → B) (whole : B → A) (left : ∀ a, whole (parts a) = a) :
    Code A where
  put a := code.put (parts a)
  take text := (code.take text).map fun (b, rest) => (whole b, rest)
  take_put a rest := by simp [code.take_put, left]

end Code
