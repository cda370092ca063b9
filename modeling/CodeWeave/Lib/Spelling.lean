import Mathlib.Data.List.Basic

universe u

/-- All the kinds there are, each with a name of its own. -/
structure Spelling (A : Type u) where
  all : List A
  name : A → List Char
  mem_all : ∀ a, a ∈ all
  name_injective : ∀ a b, name a = name b → a = b

namespace Spelling

variable {A : Type u} (spelling : Spelling A) {a : A} {text : List Char}

def parse (text : List Char) : Option A := spelling.all.find? fun a => spelling.name a = text

theorem parse_eq_some : spelling.parse text = some a ↔ spelling.name a = text := by
  constructor
  · intro found
    simpa using List.find?_some found
  · rintro rfl
    rw [parse]
    cases found : spelling.all.find? fun b => spelling.name b = spelling.name a with
    | none => exact absurd (List.find?_eq_none.mp found a (spelling.mem_all a)) (by simp)
    | some b =>
      have same : spelling.name b = spelling.name a := by simpa using List.find?_some found
      rw [spelling.name_injective b a same]

@[simp] theorem parse_name (a : A) : spelling.parse (spelling.name a) = some a :=
  spelling.parse_eq_some.mpr rfl

theorem mapM_parse_names (kinds : List A) :
    (kinds.map spelling.name).mapM spelling.parse = some kinds := by
  induction kinds with
  | nil => rfl
  | cons kind rest ih => simp [ih]

end Spelling
