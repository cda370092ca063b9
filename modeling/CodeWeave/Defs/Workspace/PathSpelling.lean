import CodeWeave.Defs.Workspace.Compensation
import CodeWeave.Defs.Workspace.EditLaws

/-! The entries of a plan are kept by the text of their paths, the files of the
disk by its components. -/

namespace CodeWeave

def EditRequest.named (request : EditRequest) : List Text := request.changes.flatMap Change.named

def OneSpelling (named : List Text) : Prop :=
  ∀ first ∈ named, ∀ second ∈ named,
    segments (normalizePathText first) = segments (normalizePathText second) →
      normalizePathText first = normalizePathText second

theorem isSome_lookup_putPlan (ws : Workspace) (plan : EditPlan) (path : RelPath)
    (before after : Option Text) (key : RelPath) :
    ((putPlan ws plan path before after).lookup key).isSome ↔
      key = path ∨ (plan.lookup key).isSome := by
  rw [lookup_putPlan]
  split
  · next same => simp [same]
  · next other => simp [other]

theorem Change.named_of_not_rename {change : Change}
    (kind : ∀ source target expected, change ≠ .rename source target expected) :
    change.named = [change.path] := by
  cases change with
  | rename source target expected => exact absurd rfl (kind source target expected)
  | _ => rfl

namespace Workspace

variable (ws : Workspace) {hasSnapshot : Bool} {index : CodeIndex} {plan plan' : EditPlan}

theorem planChange_keys {change : Change}
    (h : ws.planChange change hasSnapshot plan index = .ok plan') :
    (∀ text ∈ change.named, ∃ key, RelPath.new text = .ok key) ∧
      ∀ key, (plan'.lookup key).isSome ↔
        (plan.lookup key).isSome ∨ ∃ text ∈ change.named, RelPath.new text = .ok key := by
  obtain ⟨path, handle, pre, applied⟩ := ws.planChange_ok h
  cases applied with
  | put after kind =>
    rw [Change.named_of_not_rename kind]
    refine ⟨by simp [pre.named], fun key => ?_⟩
    rw [isSome_lookup_putPlan, or_comm, @eq_comm _ key path]
    simp [pre.named]
  | rename source text expected target kind valid =>
    have named := pre.named
    subst kind
    refine ⟨by simp [Change.named, valid, show RelPath.new source = .ok path from named],
      fun key => ?_⟩
    simp only [isSome_lookup_putPlan, Change.named, List.mem_cons, List.not_mem_nil, or_false,
      exists_eq_or_imp, exists_eq_left, valid, show RelPath.new source = .ok path from named,
      Except.ok.injEq, @eq_comm _ key]
    tauto

theorem planChanges_keys {changes : List Change}
    (h : ws.planChanges hasSnapshot index changes plan = .ok plan') :
    (∀ text ∈ changes.flatMap Change.named, ∃ key, RelPath.new text = .ok key) ∧
      ∀ key, (plan'.lookup key).isSome ↔
        (plan.lookup key).isSome ∨ ∃ text ∈ changes.flatMap Change.named, RelPath.new text = .ok key := by
  induction changes generalizing plan with
  | nil => cases h; simp
  | cons change rest ih =>
    simp only [planChanges, bind_eq_ok] at h
    obtain ⟨next, first, later⟩ := h
    have here := ws.planChange_keys first
    have there := ih later
    constructor
    · intro text mem
      cases List.mem_append.mp (List.flatMap_cons ▸ mem) with
      | inl first => exact here.1 text first
      | inr later => exact there.1 text later
    · intro key
      rw [there.2, here.2, List.flatMap_cons]
      simp only [List.mem_append, or_and_right, exists_or, or_assoc]

/-- The entries of an accepted plan name distinct files exactly when its request
names no file in two spellings. -/
theorem distinct_planEdit_iff (request : EditRequest) (disk : Disk) (shared : Reconciled)
    (edit : PlannedEdit) (accepted : ws.planEdit request disk shared = .ok edit) :
    Distinct edit.planned ↔ OneSpelling request.named := by
  obtain ⟨plan, planned, sorted, -⟩ := ws.planEdit_ok accepted
  have keyed := ws.planChanges_keyed planned
  have keys := ws.planChanges_keys planned
  have names : ∀ key, (∃ item ∈ sortPlan plan, item.path = key) ↔
      ∃ text ∈ request.named, RelPath.new text = .ok key := by
    intro key
    have := keys.2 key
    simp only [AList.lookup_empty, Option.isSome_none, Bool.false_eq_true, false_or] at this
    rw [EditRequest.named, ← this, Option.isSome_iff_exists]
    constructor
    · rintro ⟨item, mem, rfl⟩
      exact ⟨item, (mem_sortPlan keyed).mp mem⟩
    · rintro ⟨item, found⟩
      have path := keyed key item found
      exact ⟨item, (mem_sortPlan keyed).mpr (by rwa [path]), path⟩
  rw [sorted]
  constructor
  · intro distinct first hf second hs same
    obtain ⟨p, newP⟩ := keys.1 first hf
    obtain ⟨q, newQ⟩ := keys.1 second hs
    obtain ⟨a, inA, rfl⟩ := (names p).mpr ⟨first, hf, newP⟩
    obtain ⟨b, inB, rfl⟩ := (names q).mpr ⟨second, hs, newQ⟩
    rw [← RelPath.new_text newP, ← RelPath.new_text newQ] at same ⊢
    rw [distinct.eq_of_components inA inB same]
  · intro spelling
    have nodup := nodup_sortPlan keyed
    rw [Distinct]
    refine List.Nodup.map_on (fun a inA b inB same => ?_) nodup.of_map
    obtain ⟨first, hf, newP⟩ := (names a.path).mp ⟨a, inA, rfl⟩
    obtain ⟨second, hs, newQ⟩ := (names b.path).mp ⟨b, inB, rfl⟩
    have texts := spelling first hf second hs
    rw [← RelPath.new_text newP, ← RelPath.new_text newQ] at texts
    exact List.inj_on_of_nodup_map nodup inA inB (RelPath.ext (texts same))

end Workspace

namespace Sample

def creating (paths : List Text) : EditRequest :=
  ⟨paths.map fun path => .create path "x".toList false none, none, false⟩

def emptyWorld : World := World.opened .plain (Disk.holding [])

def creatingTwo : EditRequest := creating ["a/b".toList, "./c".toList]

end Sample

open Sample in
theorem distinct_planEdit_creatingTwo :
    ∃ edit, Workspace.plain.planEdit creatingTwo emptyWorld.disk emptyWorld.state.shared =
      .ok edit ∧ OneSpelling creatingTwo.named :=
  ⟨_, rfl, (Workspace.plain.distinct_planEdit_iff creatingTwo emptyWorld.disk
    emptyWorld.state.shared _ rfl).mp (by decide)⟩

-- Both spellings are accepted, and both entries are written to one file.
open Sample in
theorem planEdit_two_spellings :
    ∃ edit, Workspace.plain.planEdit (creating ["a//b".toList, "a/b".toList]) emptyWorld.disk
        emptyWorld.state.shared = .ok edit ∧
      ¬Distinct edit.planned ∧
      ∃ p q : RelPath, RelPath.new "a//b".toList = .ok p ∧ RelPath.new "a/b".toList = .ok q ∧
        p.components = q.components ∧ p ≠ q :=
  ⟨_, rfl, by decide, _, _, rfl, rfl, by decide, by decide⟩

end CodeWeave
