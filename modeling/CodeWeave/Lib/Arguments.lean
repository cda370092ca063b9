import Mathlib.Data.List.Basic

universe u

structure Argument (A : Type u) where
  text : A
  client : Bool

namespace Arguments

variable {A : Type u}

def own (texts : List A) : List (Argument A) := texts.map (⟨·, false⟩)

def client (texts : List A) : List (Argument A) := texts.map (⟨·, true⟩)

/-- How a command reads its arguments: which one ends the options, which ones take the
next argument as their value, and which ones it reads as options. -/
structure Syntax (A : Type u) where
  ends : A → Prop
  takesValue : A → Prop
  isOption : A → Prop

variable (s : Syntax A)

/-- Where an argument stands after these, it is no option. -/
def Sheltered (before : List (Argument A)) (text : A) : Prop :=
  (∃ argument ∈ before, s.ends argument.text) ∨
    (∃ argument ∈ before.getLast?, s.takesValue argument.text) ∨ ¬s.isOption text

def Guarded (arguments : List (Argument A)) : Prop :=
  ∀ before argument after, arguments = before ++ argument :: after → argument.client = true →
    Sheltered s before argument.text

variable {s}

theorem guarded_nil : Guarded s [] := by
  intro before argument after split
  simp at split

theorem guarded_snoc {arguments : List (Argument A)} {argument : Argument A} :
    Guarded s (arguments ++ [argument]) ↔
      Guarded s arguments ∧ (argument.client = true → Sheltered s arguments argument.text) := by
  constructor
  · intro guarded
    refine ⟨fun before other after split from_client => ?_, fun from_client => ?_⟩
    · exact guarded before other (after ++ [argument]) (by simp [split]) from_client
    · exact guarded arguments argument [] rfl from_client
  · rintro ⟨guarded, last⟩ before other after split from_client
    rcases List.eq_nil_or_concat after with rfl | ⟨after, final, rfl⟩
    · obtain ⟨rfl, same⟩ := List.append_inj' split rfl
      obtain rfl := List.head_eq_of_cons_eq same
      exact last from_client
    · have moved : arguments ++ [argument] = (before ++ other :: after) ++ [final] := by
        simpa using split
      obtain ⟨whole, -⟩ := List.append_inj' moved rfl
      exact guarded before other after whole from_client

theorem guarded_append {first second : List (Argument A)} (guarded : Guarded s first)
    (added : ∀ argument ∈ second, ∀ before, first <+: before → argument.client = true →
      Sheltered s before argument.text) : Guarded s (first ++ second) := by
  induction second generalizing first with
  | nil => rwa [List.append_nil]
  | cons argument second ih =>
    rw [List.append_cons]
    refine ih (guarded_snoc.mpr ⟨guarded, ?_⟩) fun other mem before begins => ?_
    · exact added argument List.mem_cons_self first List.prefix_rfl
    · exact added other (List.mem_cons_of_mem _ mem) before
        ((List.prefix_append _ _).trans begins)

theorem Guarded.own {first : List (Argument A)} (guarded : Guarded s first) (texts : List A) :
    Guarded s (first ++ own texts) := by
  refine guarded_append guarded fun argument mem before begins from_client => ?_
  obtain ⟨text, -, rfl⟩ := List.mem_map.mp mem
  cases from_client

theorem guarded_own (texts : List A) : Guarded s (own texts) := guarded_nil.own texts

theorem Guarded.ended {first : List (Argument A)} (guarded : Guarded s first)
    {argument : Argument A} (here : argument ∈ first) (ends : s.ends argument.text)
    (second : List (Argument A)) : Guarded s (first ++ second) :=
  guarded_append guarded fun _ _ _ begins _ => .inl ⟨argument, begins.subset here, ends⟩

theorem Guarded.value {first : List (Argument A)} (guarded : Guarded s first)
    {argument : Argument A} (here : first.getLast? = some argument)
    (takesValue : s.takesValue argument.text) (value : A) :
    Guarded s (first ++ client [value]) :=
  guarded_snoc.mpr ⟨guarded, fun _ => .inr (.inl ⟨argument, here, takesValue⟩)⟩

theorem Guarded.plain {first : List (Argument A)} (guarded : Guarded s first) {text : A}
    (plain : ¬s.isOption text) : Guarded s (first ++ client [text]) :=
  guarded_snoc.mpr ⟨guarded, fun _ => .inr (.inr plain)⟩

end Arguments
