import Mathlib.Logic.Relation

universe u v

namespace Runs

variable {S : Type u} {L : Type v} {Step : S → L → S → Prop}

inductive Run (Step : S → L → S → Prop) : S → List L → S → Prop
  | nil (s : S) : Run Step s [] s
  | snoc {s t u : S} {ls : List L} {l : L} :
      Run Step s ls t → Step t l u → Run Step s (ls ++ [l]) u

/-- The steps of `Step` that meet a condition on the state they start in and
on their label. -/
def Along (Guard : S → L → Prop) (Step : S → L → S → Prop) (s : S) (l : L) (t : S) : Prop :=
  Guard s l ∧ Step s l t

theorem Run.single {s t : S} {l : L} (h : Step s l t) : Run Step s [l] t :=
  .snoc (.nil s) h

theorem Run.trans {s t u : S} {ls ms : List L} (h : Run Step s ls t) (k : Run Step t ms u) :
    Run Step s (ls ++ ms) u := by
  induction k with
  | nil => simpa using h
  | snoc _ step ih =>
    rw [← List.append_assoc]
    exact .snoc ih step

theorem Run.mono {Step' : S → L → S → Prop} (sub : ∀ s l t, Step s l t → Step' s l t)
    {s t : S} {ls : List L} (h : Run Step s ls t) : Run Step' s ls t := by
  induction h with
  | nil => exact .nil _
  | snoc _ step ih => exact .snoc ih (sub _ _ _ step)

theorem Run.forget {Guard : S → L → Prop} {s t : S} {ls : List L}
    (h : Run (Along Guard Step) s ls t) : Run Step s ls t :=
  h.mono fun _ _ _ step => step.2

theorem Run.invariant (Inv : S → Prop) (preserved : ∀ s l t, Inv s → Step s l t → Inv t)
    {s t : S} {ls : List L} (h : Run Step s ls t) (start : Inv s) : Inv t := by
  induction h with
  | nil => exact start
  | snoc _ step ih => exact preserved _ _ _ ih step

theorem Run.of_foldlM {f : S → L → Option S} {s t : S} {ls : List L}
    (h : ls.foldlM f s = some t) : Run (fun s l t => f s l = some t) s ls t := by
  induction ls generalizing s with
  | nil =>
    cases h
    exact .nil _
  | cons l rest ih =>
    rw [List.foldlM_cons] at h
    cases step : f s l with
    | none => rw [step] at h; cases h
    | some next =>
      rw [step] at h
      exact (Run.single step).trans (ih h)

theorem Run.along {Guard : S → L → Prop} {s t : S} {ls : List L} (h : Run Step s ls t)
    (guarded : ∀ s, ∀ l ∈ ls, Guard s l) : Run (Along Guard Step) s ls t := by
  induction h with
  | nil => exact .nil _
  | snoc _ step ih =>
    refine .snoc (ih fun s l mem => guarded s l (List.mem_append_left _ mem)) ⟨?_, step⟩
    exact guarded _ _ (List.mem_append_right _ (List.mem_singleton_self _))

theorem Run.of_guarded_foldlM {f : S → L → Option S} {Guard : S → L → Prop}
    [∀ s l, Decidable (Guard s l)] {s t : S} {ls : List L}
    (h : ls.foldlM (fun s l => if Guard s l then f s l else none) s = some t) :
    Run (Along Guard fun s l t => f s l = some t) s ls t :=
  (Run.of_foldlM h).mono fun s l t step => by
    split at step
    · next met => exact ⟨met, step⟩
    · cases step

theorem Run.labels (Inv : S → Prop) (preserved : ∀ s l t, Inv s → Step s l t → Inv t)
    {P : L → Prop} (each : ∀ s l t, Inv s → Step s l t → P l) {s t : S} {ls : List L}
    (h : Run Step s ls t) (start : Inv s) : ∀ l ∈ ls, P l := by
  induction h with
  | nil => exact nofun
  | snoc run step ih =>
    intro l mem
    rcases List.mem_append.mp mem with earlier | last
    · exact ih l earlier
    · rw [List.mem_singleton.mp last]
      exact each _ _ _ (run.invariant Inv preserved start) step

theorem Run.invariant_along {Guard : S → L → Prop} (Inv : S → Prop)
    (preserved : ∀ s l t, Inv s → Guard s l → Step s l t → Inv t)
    {s t : S} {ls : List L} (h : Run (Along Guard Step) s ls t) (start : Inv s) : Inv t :=
  h.invariant Inv (fun s l t inv step => preserved s l t inv step.1 step.2) start

theorem Run.along_of_invariant {Guard Guard' : S → L → Prop} (Inv : S → Prop)
    (preserved : ∀ s l t, Inv s → Guard s l → Step s l t → Inv t)
    (enough : ∀ s l, Inv s → Guard s l → Guard' s l) {s t : S} {ls : List L}
    (h : Run (Along Guard Step) s ls t) (start : Inv s) : Run (Along Guard' Step) s ls t := by
  induction h with
  | nil => exact .nil _
  | snoc run step ih =>
    have here := run.invariant_along Inv preserved start
    exact .snoc ih ⟨enough _ _ here step.1, step.2⟩

end Runs
