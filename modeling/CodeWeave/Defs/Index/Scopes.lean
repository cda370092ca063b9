import CodeWeave.Defs.Index.SearchLaws
import CodeWeave.Defs.Index.PlainPath
import CodeWeave.Defs.TrimLaws
import Mathlib.Data.Set.Finite.Basic

namespace CodeWeave

/-- The components a scope text names: `\` separates too, and empty ones and `.` are none. -/
def scopeComponents (filter : Text) : List Text :=
  segments (filter.map fun c => if c = '\\' then '/' else c)

/-- The scope is the whole tree, or the path is at or below one of its filters. -/
def ScopeCovers (filters : List Text) (key : List Text) : Prop :=
  filters = [] ∨ ∃ filter ∈ filters, scopeComponents filter <+: key

def PlainlySpelled (filter : Text) : Prop :=
  scopeComponents filter ≠ [] ∧ normalizePathText filter = joinSegments (scopeComponents filter)

/-- The path is at or below a plainly spelled filter, or strictly below one with one slash
more at its end. -/
def Selects (filter : Text) (key : List Text) : Prop :=
  scopeComponents filter ≠ [] ∧ scopeComponents filter <+: key ∧
    (normalizePathText filter = joinSegments (scopeComponents filter) ∨
      normalizePathText filter = joinSegments (scopeComponents filter) ++ ['/'] ∧
        scopeComponents filter ≠ key)

def Blank (filters : List Text) : Prop := ∀ filter ∈ filters, normalizePathText filter = []

def SpelledPlainly (filters : List Text) : Prop :=
  Blank filters ∨ ∀ filter ∈ filters, ∃ top ∈ filters,
    PlainlySpelled top ∧ scopeComponents top <+: scopeComponents filter

def ScopeExact (filters : List Text) : Prop :=
  ∀ key, PlainPath key → key ≠ [] →
    ((PathFilterSet.new filters).allows (joinSegments key) = true ↔ ScopeCovers filters key)

theorem segments_normalizePathText (filter : Text) :
    segments (normalizePathText filter) = scopeComponents filter := by
  rw [normalizePathText, scopeComponents]
  split
  · exact segments_trimDotSlash _
  · next absent =>
    have same : (filter.map fun c => if c = '\\' then '/' else c) = filter := by
      refine (List.map_congr_left fun c mem => ?_).trans (List.map_id _)
      exact if_neg fun (backslash : c = '\\') => absent (backslash ▸ mem)
    rw [same, segments_trimDotSlash]

theorem mem_of_mem_splitOn {text part : Text} (mem : part ∈ text.splitOn '/') {c : Char}
    (inside : c ∈ part) : c ∈ text ∧ c ≠ '/' := by
  induction text generalizing part with
  | nil =>
    rw [List.splitOn_nil, List.mem_singleton] at mem
    rw [mem] at inside
    cases inside
  | cons d rest ih =>
    rw [List.splitOn_cons_eq_if_modifyHead] at mem
    split at mem
    · rcases List.mem_cons.mp mem with rfl | later
      · cases inside
      · exact ⟨List.mem_cons_of_mem _ (ih later inside).1, (ih later inside).2⟩
    · next other =>
      cases parts : rest.splitOn '/' with
      | nil => exact absurd parts (List.splitOn_ne_nil _ _)
      | cons first later =>
        rw [parts] at mem ih
        rcases List.mem_cons.mp mem with rfl | among
        · rcases List.mem_cons.mp inside with rfl | within
          · exact ⟨List.mem_cons_self, fun slash => other (beq_iff_eq.mpr slash)⟩
          · have before := ih List.mem_cons_self within
            exact ⟨List.mem_cons_of_mem _ before.1, before.2⟩
        · have before := ih (List.mem_cons_of_mem _ among) inside
          exact ⟨List.mem_cons_of_mem _ before.1, before.2⟩

theorem plainPath_scopeComponents {filter : Text} (inside : parentName ∉ scopeComponents filter) :
    PlainPath (scopeComponents filter) := by
  intro name mem
  have part := mem
  rw [← segments_normalizePathText, segments, List.mem_filter] at part
  obtain ⟨piece, kept⟩ := part
  obtain ⟨nonempty, notDot⟩ := of_decide_eq_true kept
  exact
    { nonempty
      notDot
      notParent := fun (parent : name = parentName) => inside (parent ▸ mem)
      noSlash := fun slash => (mem_of_mem_splitOn piece slash).2 rfl
      noBackslash := fun backslash => no_backslash_normalizePathText filter
        (mem_of_mem_splitOn piece backslash).1 }

theorem PlainPath.cut {parts : List Text} (plain : PlainPath parts) (named : parts ≠ [])
    {top rest : Text} (text : joinSegments parts = top ++ '/' :: rest) :
    ∃ above below, parts = above ++ below ∧ top = joinSegments above ∧ above ≠ [] ∧
      below ≠ [] := by
  have split := plain.splitOn_joinSegments named
  rw [text, List.splitOn_append_cons_self] at split
  exact ⟨top.splitOn '/', rest.splitOn '/', split.symm, (List.intercalate_splitOn '/').symm,
    List.splitOn_ne_nil _ _, List.splitOn_ne_nil _ _⟩

theorem Blank.covers {filters : List Text} (blank : Blank filters) (key : List Text) :
    ScopeCovers filters key := by
  cases filters with
  | nil => exact .inl rfl
  | cons filter rest =>
    refine .inr ⟨filter, List.mem_cons_self, ?_⟩
    rw [← segments_normalizePathText, blank filter List.mem_cons_self]
    exact List.nil_prefix

section

variable {filter : Text} {filters : List Text} {key : List Text}

theorem PlainlySpelled.selects (spelled : PlainlySpelled filter)
    (below : scopeComponents filter <+: key) : Selects filter key :=
  ⟨spelled.1, below, .inl spelled.2⟩

variable (plain : PlainPath key) (named : key ≠ [])

include plain named

theorem pathMatchesFilter_plain :
    pathMatchesFilter (joinSegments key) (normalizePathText filter) = true ↔
      Selects filter key := by
  rw [pathMatchesFilter_iff]
  have components : scopeComponents filter = segments (normalizePathText filter) :=
    (segments_normalizePathText filter).symm
  constructor
  · rintro (same | ⟨rest, text⟩ | ⟨directory, rest, text⟩)
    · have own : scopeComponents filter = key := by
        rw [components, ← same, segments_joinSegments plain]
      refine ⟨own ▸ named, own ▸ List.prefix_rfl, .inl ?_⟩
      rw [own, same]
    · rw [List.append_assoc, List.singleton_append] at text
      obtain ⟨above, below, rfl, top, some, -⟩ := plain.cut named text.symm
      have own : scopeComponents filter = above := by
        rw [components, top, segments_joinSegments (plain.of_prefix (List.prefix_append ..))]
      refine ⟨own ▸ some, own ▸ List.prefix_append .., .inl ?_⟩
      rw [own, top]
    · obtain ⟨top, eq⟩ := List.getLast?_eq_some_iff.mp directory
      rw [eq, List.append_assoc, List.singleton_append] at text
      obtain ⟨above, below, rfl, rfl, some, more⟩ := plain.cut named text.symm
      have own : scopeComponents filter = above := by
        rw [components, eq, segments_append,
          segments_joinSegments (plain.of_prefix (List.prefix_append ..))]
        exact List.append_nil _
      have strict : scopeComponents filter ≠ above ++ below :=
        own ▸ fun same => more (List.self_eq_append_right.mp same)
      refine ⟨own ▸ some, own ▸ List.prefix_append .., .inr ⟨?_, strict⟩⟩
      rw [own, eq]
  · rintro ⟨some, below, spelled⟩
    have top := plain.of_prefix below
    rcases spelled with same | ⟨same, strict⟩
    · rw [same]
      rcases (top.atOrBelow_iff plain some).mpr below with here | under
      · exact .inl here
      · exact .inr (.inl under)
    · rw [same]
      refine .inr (.inr ⟨by simp, ?_⟩)
      exact (top.prefix_iff plain some).mpr ⟨below, strict⟩

theorem allows_plain : (PathFilterSet.new filters).allows (joinSegments key) = true ↔
    Blank filters ∨ ∃ filter ∈ filters, Selects filter key := by
  rw [allows_iff, InScope, Blank]
  refine or_congr_right ?_
  constructor
  · rintro ⟨_, mem, -, hit⟩
    obtain ⟨filter, among, rfl⟩ := List.mem_map.mp mem
    exact ⟨filter, among, (pathMatchesFilter_plain plain named).mp
      ((pathMatchesFilter_iff _ _).mpr hit)⟩
  · rintro ⟨filter, among, selects⟩
    refine ⟨normalizePathText filter, List.mem_map_of_mem among, fun empty => ?_,
      (pathMatchesFilter_iff _ _).mp ((pathMatchesFilter_plain plain named).mpr selects)⟩
    refine selects.1 ?_
    rw [← segments_normalizePathText, empty]
    rfl

theorem scopeCovers_of_allows
    (allowed : (PathFilterSet.new filters).allows (joinSegments key) = true) :
    ScopeCovers filters key := by
  rcases (allows_plain plain named).mp allowed with blank | ⟨filter, among, -, below, -⟩
  · exact blank.covers key
  · exact .inr ⟨filter, among, below⟩

theorem allows_iff_scopeCovers :
    ((PathFilterSet.new filters).allows (joinSegments key) = true ↔ ScopeCovers filters key) ↔
      (ScopeCovers filters key → Blank filters ∨ ∃ filter ∈ filters, Selects filter key) := by
  rw [← allows_plain plain named]
  exact ⟨fun exact => exact.mpr, fun enough => ⟨scopeCovers_of_allows plain named, enough⟩⟩

end

theorem exists_fresh (filters : List Text) : ∃ name : Text, PlainPath [name] ∧
    ∀ filter ∈ filters, scopeComponents filter <+: [name] → scopeComponents filter = [] := by
  have distinct : Function.Injective fun n => List.replicate (n + 1) 'a' := by
    intro m n same
    simpa using congrArg List.length same
  have bound := Set.infinite_range_of_injective distinct
  obtain ⟨_, ⟨n, rfl⟩, fresh⟩ := bound.exists_notMem_finset
    ((filters.flatMap scopeComponents).toFinset)
  refine ⟨List.replicate (n + 1) 'a', fun name mem => ?_, fun filter among below => ?_⟩
  · rw [List.mem_singleton.mp mem]
    have letters {c : Char} (among : c ∈ List.replicate (n + 1) 'a') : c = 'a' :=
      List.eq_of_mem_replicate among
    have first : 'a' ∈ List.replicate (n + 1) 'a' := List.mem_replicate.mpr ⟨by omega, rfl⟩
    exact
      { nonempty := List.ne_nil_of_mem first
        notDot := fun same => absurd (same ▸ first) (by decide)
        notParent := fun same => absurd (same ▸ first) (by decide)
        noSlash := fun slash => absurd (letters slash) (by decide)
        noBackslash := fun backslash => absurd (letters backslash) (by decide) }
  · rcases List.prefix_cons_iff.mp below with none | ⟨rest, some, -⟩
    · exact none
    · refine absurd (List.mem_toFinset.mpr (List.mem_flatMap.mpr ⟨filter, among, ?_⟩)) fresh
      exact some ▸ List.mem_cons_self

theorem scopeExact_iff {filters : List Text}
    (inside : ∀ filter ∈ filters, parentName ∉ scopeComponents filter) :
    ScopeExact filters ↔ SpelledPlainly filters := by
  constructor
  · intro exact
    by_cases blank : Blank filters
    · exact .inl blank
    · have selects {key : List Text} (plain : PlainPath key) (named : key ≠ [])
          (covered : ScopeCovers filters key) : ∃ filter ∈ filters, Selects filter key :=
        ((allows_plain plain named).mp ((exact key plain named).mpr covered)).resolve_left blank
      refine .inr fun filter mem => ?_
      induction count : (scopeComponents filter).length using Nat.strong_induction_on
        generalizing filter with
      | h n ih =>
        by_cases whole : scopeComponents filter = []
        · obtain ⟨name, plain, fresh⟩ := exists_fresh filters
          have covered : ScopeCovers filters [name] :=
            .inr ⟨filter, mem, whole ▸ List.nil_prefix⟩
          obtain ⟨top, among, some, below, -⟩ := selects plain (List.cons_ne_nil _ _) covered
          exact absurd (fresh top among below) some
        · obtain ⟨top, among, some, below, spelled⟩ :=
            selects (plainPath_scopeComponents (inside filter mem)) whole
              (.inr ⟨filter, mem, List.prefix_rfl⟩)
          rcases spelled with same | ⟨-, strict⟩
          · exact ⟨top, among, ⟨some, same⟩, below⟩
          · have shorter : (scopeComponents top).length < n := by
              rw [← count]
              exact lt_of_le_of_ne below.length_le fun same => strict (below.eq_of_length same)
            obtain ⟨first, early, spelled, above⟩ := ih _ shorter top among rfl
            exact ⟨first, early, spelled, above.trans below⟩
  · intro spelled key plain named
    rw [allows_iff_scopeCovers plain named]
    intro covered
    rcases spelled with blank | each
    · exact .inl blank
    · rcases covered with rfl | ⟨filter, mem, below⟩
      · exact .inl (fun _ none => absurd none List.not_mem_nil)
      · obtain ⟨top, among, spelled, above⟩ := each filter mem
        exact .inr ⟨top, among, spelled.selects (above.trans below)⟩

end CodeWeave
