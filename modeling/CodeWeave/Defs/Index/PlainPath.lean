import CodeWeave.Defs.Index.FileLaws

namespace CodeWeave

instance (name : Text) : Decidable (PlainName name) :=
  decidable_of_iff (name ≠ [] ∧ name ≠ ['.'] ∧ name ≠ ['.', '.'] ∧ '/' ∉ name ∧ '\\' ∉ name)
    ⟨fun h => ⟨h.1, h.2.1, h.2.2.1, h.2.2.2.1, h.2.2.2.2⟩,
      fun h => ⟨h.nonempty, h.notDot, h.notParent, h.noSlash, h.noBackslash⟩⟩

instance (parts : List Text) : Decidable (PlainPath parts) :=
  inferInstanceAs (Decidable (∀ name ∈ parts, PlainName name))

theorem joinSegments_cons (name : Text) (rest : List Text) :
    ∃ post, joinSegments (name :: rest) = name ++ post := by
  cases rest with
  | nil => exact ⟨[], by simp [joinSegments, List.intercalate]⟩
  | cons next rest => exact ⟨_, joinSegments_cons_cons name next rest⟩

theorem joinSegments_concat (parts : List Text) (name : Text) :
    ∃ pre, joinSegments (parts ++ [name]) = pre ++ name := by
  induction parts with
  | nil => exact ⟨[], by simp [joinSegments, List.intercalate]⟩
  | cons first rest ih =>
    obtain ⟨pre, eq⟩ := ih
    cases rest with
    | nil =>
      refine ⟨first ++ ['/'], ?_⟩
      rw [List.cons_append, List.nil_append, joinSegments_cons_cons]
      simp [joinSegments, List.intercalate]
    | cons next rest =>
      refine ⟨first ++ '/' :: pre, ?_⟩
      rw [List.cons_append] at eq
      rw [List.cons_append, List.cons_append, joinSegments_cons_cons, eq]
      simp

theorem prefix_of_slash {p q x y : Text} (noSlash : '/' ∉ p) (noSlash' : '/' ∉ q)
    (h : p ++ '/' :: x <+: q ++ '/' :: y) : p = q ∧ x <+: y := by
  induction p generalizing q with
  | nil =>
    cases q with
    | nil => exact ⟨rfl, (List.cons_prefix_cons.mp h).2⟩
    | cons c q =>
      have slash := (List.cons_prefix_cons.mp h).1
      subst slash
      exact absurd (List.mem_cons_self ..) noSlash'
  | cons c p ih =>
    rw [List.cons_append] at h
    cases q with
    | nil =>
      have slash := (List.cons_prefix_cons.mp h).1
      subst slash
      exact absurd (List.mem_cons_self ..) noSlash
    | cons d q =>
      obtain ⟨same, rest⟩ := List.cons_prefix_cons.mp h
      have later := ih (fun mem => noSlash (List.mem_cons_of_mem _ mem))
        (fun mem => noSlash' (List.mem_cons_of_mem _ mem)) rest
      exact ⟨by rw [same, later.1], later.2⟩

section

variable {parts top : List Text}

theorem PlainPath.tail {name : Text} (plain : PlainPath (name :: parts)) : PlainPath parts :=
  fun other mem => plain other (List.mem_cons_of_mem _ mem)

theorem PlainPath.of_prefix (plain : PlainPath parts) (h : top <+: parts) : PlainPath top :=
  fun name mem => plain name (h.subset mem)

theorem PlainPath.prefix_iff (plainTop : PlainPath top) (plain : PlainPath parts)
    (named : top ≠ []) :
    joinSegments top ++ ['/'] <+: joinSegments parts ↔ top <+: parts ∧ top ≠ parts := by
  constructor
  · intro below
    induction top generalizing parts with
    | nil => exact absurd rfl named
    | cons name top ih =>
      have noSlash := (plainTop name (List.mem_cons_self ..)).noSlash
      cases parts with
      | nil =>
        obtain ⟨post, eq⟩ := below
        simp [joinSegments] at eq
      | cons name' parts =>
        have noSlash' := (plain name' (List.mem_cons_self ..)).noSlash
        cases parts with
        | nil =>
          have slash : '/' ∈ joinSegments [name'] := below.subset (by simp)
          exact absurd (by simpa [joinSegments, List.intercalate] using slash) noSlash'
        | cons next parts =>
          rw [joinSegments_cons_cons name'] at below
          cases top with
          | nil =>
            have step : name ++ '/' :: [] <+: name' ++ '/' :: joinSegments (next :: parts) := by
              simpa [joinSegments, List.intercalate] using below
            rw [(prefix_of_slash noSlash noSlash' step).1]
            simp
          | cons inner top =>
            rw [joinSegments_cons_cons, List.append_assoc, List.cons_append] at below
            obtain ⟨same, rest⟩ := prefix_of_slash noSlash noSlash' below
            have later := ih plainTop.tail plain.tail (List.cons_ne_nil _ _) rest
            rw [same]
            exact ⟨List.cons_prefix_cons.mpr ⟨rfl, later.1⟩,
              fun eq => later.2 (List.cons.inj eq).2⟩
  · rintro ⟨⟨rest, rfl⟩, differs⟩
    cases rest with
    | nil => exact absurd (List.append_nil _).symm differs
    | cons next rest =>
      clear plainTop plain differs
      induction top with
      | nil => exact absurd rfl named
      | cons name top ih =>
        cases top with
        | nil =>
          rw [List.cons_append, List.nil_append, joinSegments_cons_cons]
          simp [joinSegments, List.intercalate]
        | cons inner top =>
          rw [List.cons_append, List.cons_append, joinSegments_cons_cons, joinSegments_cons_cons,
            List.append_assoc, List.cons_append]
          exact (List.prefix_append_right_inj name).mpr
            (List.cons_prefix_cons.mpr ⟨rfl, ih (List.cons_ne_nil _ _)⟩)

theorem PlainPath.atOrBelow_iff (plainTop : PlainPath top) (plain : PlainPath parts)
    (named : top ≠ []) : AtOrBelow (joinSegments top) (joinSegments parts) ↔ top <+: parts := by
  rw [AtOrBelow, plainTop.prefix_iff plain named]
  constructor
  · rintro (same | below)
    · rw [joinSegments_injOn plain plainTop same]
    · exact below.1
  · intro below
    by_cases same : top = parts
    · exact .inl (by rw [same])
    · exact .inr ⟨below, same⟩

variable (plain : PlainPath parts)

include plain

theorem PlainPath.head_joinSegments (named : parts ≠ []) :
    ∃ c name post, PlainName (c :: name) ∧ joinSegments parts = c :: name ++ post := by
  cases parts with
  | nil => exact absurd rfl named
  | cons name rest =>
    obtain ⟨post, eq⟩ := joinSegments_cons name rest
    have plainName := plain name (List.mem_cons_self ..)
    cases name with
    | nil => exact absurd rfl plainName.nonempty
    | cons c name => exact ⟨c, name, post, plainName, eq⟩

@[simp] theorem PlainPath.normalizePathText_joinSegments :
    normalizePathText (joinSegments parts) = joinSegments parts := by
  rw [normalizePathText_eq_trim plain.no_backslash]
  refine trimDotSlash_eq_self fun rest eq => ?_
  by_cases named : parts = []
  · subst named
    simp [joinSegments] at eq
  · obtain ⟨c, name, post, plainName, text⟩ := plain.head_joinSegments named
    rw [text] at eq
    obtain ⟨dot, rest_eq⟩ := List.cons.inj eq
    cases name with
    | nil => exact plainName.notDot (by rw [dot])
    | cons d name =>
      have slash := (List.cons.inj rest_eq).1
      exact plainName.noSlash (by rw [slash]; simp)

theorem PlainPath.not_isAbsolute : ¬isAbsolute (joinSegments parts) := by
  intro absolute
  by_cases named : parts = []
  · subst named
    simp [isAbsolute, joinSegments] at absolute
  · obtain ⟨c, name, post, plainName, text⟩ := plain.head_joinSegments named
    rw [isAbsolute, text] at absolute
    exact plainName.noSlash (by rw [Option.some.inj absolute]; simp)

theorem PlainPath.trimSlashes_joinSegments :
    trimSlashes (joinSegments parts) = joinSegments parts := by
  by_cases named : parts = []
  · subst named
    rfl
  · obtain ⟨c, name, post, first, text⟩ := plain.head_joinSegments named
    have front : (joinSegments parts).dropWhile (· = '/') = joinSegments parts := by
      have other : c ≠ '/' := fun slash => first.noSlash (by rw [slash]; simp)
      rw [text, List.cons_append, List.dropWhile_cons_of_neg (by simpa using other)]
    obtain ⟨init, last, concat⟩ := (List.eq_nil_or_concat parts).resolve_left named
    rw [List.concat_eq_append] at concat
    rw [trimSlashes, front, List.rdropWhile_eq_self_iff]
    intro nonempty slash
    have final := plain last (by rw [concat]; simp)
    obtain ⟨pre, joined⟩ := joinSegments_concat init last
    simp only [concat, joined, List.getLast_append_of_ne_nil _ final.nonempty, decide_eq_true_eq]
      at slash
    exact final.noSlash (slash ▸ List.getLast_mem final.nonempty)

theorem PlainPath.splitOn_joinSegments (named : parts ≠ []) :
    (joinSegments parts).splitOn '/' = parts :=
  List.splitOn_intercalate _ (fun name mem => (plain name mem).noSlash) named

@[simp] theorem PlainPath.relative_pathOf : (pathOf parts).relative = joinSegments parts :=
  plain.normalizePathText_joinSegments

def PlainPath.relPath : RelPath where
  text := joinSegments parts
  normal := plain.normalizePathText_joinSegments
  relative := plain.not_isAbsolute
  inside := by
    rw [segments_joinSegments plain]
    exact fun mem => (plain _ mem).notParent rfl

theorem PlainPath.relPath_text : plain.relPath.text = joinSegments parts := rfl

@[simp] theorem PlainPath.relPath_components : plain.relPath.components = parts :=
  segments_joinSegments plain

theorem PlainPath.relPath_join : plain.relPath.join = pathOf parts := rfl

theorem PlainPath.key_pathOf : (pathOf parts).key = (true, parts) := by
  rw [pathOf, PathBuf.key, segments_joinSegments plain]

end

section

variable {ws : Workspace} {parts : List Text}

theorem PathBuf.components_pathOf (plain : PlainPath parts) (root : List Text) :
    (pathOf parts).components root = root ++ parts := by
  rw [pathOf, PathBuf.components, segments_joinSegments plain]

theorem PathBuf.fileName_pathOf (plain : PlainPath parts) (root : List Text) {last : Text}
    (final : parts.getLast? = some last) : (pathOf parts).fileName root = some last := by
  have named := plain last (List.mem_of_getLast? final)
  rw [fileName, components_pathOf plain, List.getLast?_append, final, Option.some_or]
  simp [parentName, named.notParent]

theorem Workspace.isIgnored_pathOf_eq (plain : PlainPath parts) (named : parts ≠ [])
    (isDir : Bool) : ws.isIgnored (pathOf parts) isDir =
      (parts.any ignoredPathComponent || ws.matcher (joinSegments parts) isDir) := by
  have noBackslash : ((joinSegments parts).map fun c => if c = '\\' then '/' else c) =
      joinSegments parts := by
    refine (List.map_congr_left fun c mem => ?_).trans (List.map_id _)
    have other : c ≠ '\\' := fun backslash => plain.no_backslash (backslash ▸ mem)
    rw [if_neg other]
    rfl
  rw [isIgnored, pathOf, PathBuf.relativePath]
  simp only [noBackslash, plain.trimSlashes_joinSegments, ignoredWorkspacePath,
    plain.normalizePathText_joinSegments, plain.splitOn_joinSegments named]

theorem Workspace.isIgnored_pathOf (unfiltered : ws.matcher = fun _ _ => false)
    (plain : PlainPath parts) (named : parts ≠ []) (isDir : Bool) :
    ws.isIgnored (pathOf parts) isDir = parts.any ignoredPathComponent := by
  rw [isIgnored_pathOf_eq plain named, unfiltered, Bool.or_false]

end

end CodeWeave
