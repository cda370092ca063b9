import CodeWeave.Defs.Error

namespace CodeWeave

def parentName : Text := ['.', '.']

/-- Forward slashes and no leading `./`. -/
def normalizePathText (path : Text) : Text :=
  if '\\' ∈ path then trimDotSlash (path.map fun c => if c = '\\' then '/' else c)
  else trimDotSlash path

def isAbsolute (path : Text) : Prop := path.head? = some '/'

instance (path : Text) : Decidable (isAbsolute path) := inferInstanceAs (Decidable (_ = _))

theorem no_backslash_normalizePathText (path : Text) : '\\' ∉ normalizePathText path := by
  intro mem
  unfold normalizePathText at mem
  split at mem
  · have := (trimDotSlash_suffix _).subset mem
    simp only [List.mem_map] at this
    obtain ⟨c, -, hc⟩ := this
    split at hc
    · exact absurd hc (by decide)
    · next ne => exact ne hc
  · next absent => exact absent ((trimDotSlash_suffix _).subset mem)

@[simp] theorem normalizePathText_idem (path : Text) :
    normalizePathText (normalizePathText path) = normalizePathText path := by
  rw [normalizePathText, if_neg (no_backslash_normalizePathText path)]
  unfold normalizePathText
  split <;> simp

theorem normalizePathText_eq_trim {path : Text} (h : '\\' ∉ path) :
    normalizePathText path = trimDotSlash path := if_neg h

/-- A workspace-relative path: normalized, not absolute, and without a `..`
component. -/
structure RelPath where
  text : Text
  normal : normalizePathText text = text
  relative : ¬isAbsolute text
  inside : parentName ∉ segments text
  deriving DecidableEq

@[ext] theorem RelPath.ext {p q : RelPath} (h : p.text = q.text) : p = q := by
  cases p; cases q; cases h; rfl

def RelPath.new (text : Text) : AppResult RelPath :=
  let normalized := normalizePathText text
  if absolute : isAbsolute normalized then
    .error (.new .outsideRoot "Absolute paths are not allowed")
  else if escapes : parentName ∈ segments normalized then
    .error (.new .outsideRoot "Path traversal is not allowed")
  else .ok ⟨normalized, normalizePathText_idem text, absolute, escapes⟩

theorem RelPath.new_text {text : Text} {path : RelPath} (h : RelPath.new text = .ok path) :
    path.text = normalizePathText text := by
  simp only [RelPath.new] at h
  split at h
  · cases h
  · split at h
    · cases h
    · cases h; rfl

@[simp] theorem RelPath.new_self (path : RelPath) : RelPath.new path.text = .ok path := by
  have absolute : ¬isAbsolute (normalizePathText path.text) := by
    rw [path.normal]; exact path.relative
  have escapes : parentName ∉ segments (normalizePathText path.text) := by
    rw [path.normal]; exact path.inside
  simp only [RelPath.new, absolute, escapes, dite_false, Except.ok.injEq]
  ext1
  exact path.normal

theorem RelPath.new_normalizePathText (text : Text) :
    RelPath.new (normalizePathText text) = RelPath.new text := by
  simp [RelPath.new]

def RelPath.components (path : RelPath) : List Text := segments path.text

/-- An absolute path, as `strip_prefix` of the canonical root sees it: the root
joined with a text, or a path that does not start with the root. -/
inductive PathBuf
  | below (text : Text)
  | outside (text : Text)
  deriving DecidableEq

abbrev PathKey := Bool × List Text

def PathBuf.key : PathBuf → PathKey
  | .below text => (true, segments text)
  | .outside text => (false, segments text)

/-- `WorkspaceRoot::relative`. -/
def PathBuf.relative : PathBuf → Text
  | .below text => normalizePathText text
  | .outside text => normalizePathText text

def PathBuf.components (root : List Text) : PathBuf → List Text
  | .below text => root ++ segments text
  | .outside text => segments text

def PathBuf.fileName (root : List Text) (path : PathBuf) : Option Text :=
  match (path.components root).getLast? with
  | some name => if name = parentName then none else some name
  | none => none

/-- `WorkspaceRoot::join`. -/
def RelPath.join (path : RelPath) : PathBuf := .below path.text

@[simp] theorem RelPath.relative_join (path : RelPath) : path.join.relative = path.text :=
  path.normal

@[simp] theorem RelPath.key_join (path : RelPath) : path.join.key = (true, path.components) := rfl

theorem PlainPath.no_backslash {parts : List Text} (plain : PlainPath parts) :
    '\\' ∉ joinSegments parts := by
  intro mem
  have : ∀ ps : List Text, PlainPath ps → '\\' ∉ joinSegments ps := by
    intro ps
    induction ps with
    | nil => simp [joinSegments]
    | cons p ps ih =>
      intro plain
      have rest : PlainPath ps := fun name h => plain name (List.mem_cons_of_mem _ h)
      have first := (plain p List.mem_cons_self).noBackslash
      cases ps with
      | nil => simpa [joinSegments, List.intercalate] using first
      | cons q qs =>
        have := ih rest
        simp only [joinSegments, List.intercalate_cons_cons, List.mem_append] at this ⊢
        simp [first, this]
  exact this parts plain mem

end CodeWeave
