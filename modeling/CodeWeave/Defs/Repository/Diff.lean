import CodeWeave.Defs.Workspace.Config

namespace CodeWeave

/-- The lines one side of a hunk covers. A zero `count` covers no line. -/
structure LineSpan where
  start : Nat
  count : Nat
  deriving DecidableEq

def LineSpan.overlaps (span : LineSpan) (start finish : Nat) : Bool :=
  0 < span.count && span.start ≤ finish && start ≤ span.start + (span.count - 1)

def parseSpan (value : Text) : LineSpan :=
  let value := value.dropWhile fun c => c = '-' || c = '+'
  let (start, count) := (splitOnce ',' value).getD (value, ['1'])
  ⟨(parseUsize start).getD 0, (parseUsize count).getD 1⟩

structure DiffHunk where
  id : Text
  path : Text
  old : LineSpan
  new : LineSpan
  text : Text
  deriving DecidableEq

def DiffHunk.overlaps (hunk : DiffHunk) (start finish : Nat) : Bool :=
  hunk.old.overlaps start finish || hunk.new.overlaps start finish

structure Diff where
  text : Text
  hunks : List DiffHunk
  deriving DecidableEq

structure OpenHunk where
  old : LineSpan
  new : LineSpan
  text : Text

structure HunkParse where
  hunks : List DiffHunk
  path : Text
  header : Text
  active : Option OpenHunk

namespace HunkParse

variable (ws : Workspace)

def start : HunkParse := ⟨[], [], [], none⟩

def finish (parse : HunkParse) : HunkParse :=
  match parse.active with
  | none => parse
  | some ⟨old, new, text⟩ =>
    let separator : Text := [Char.ofNat 0]
    let id := ws.contentHash (parse.path ++ separator ++ decimal old.start ++ separator ++
      decimal new.start ++ separator ++ text)
    { parse with hunks := parse.hunks ++ [⟨id, parse.path, old, new, text⟩], active := none }

def line (parse : HunkParse) (line : Text) : HunkParse :=
  if "diff --git ".toList <+: line then
    { finish ws parse with path := [], header := line }
  else
    let parse := match stripPrefix "+++ b/".toList line with
      | some value => { parse with path := trimEnd value }
      | none => parse
    if "@@ ".toList <+: line then
      let parse := finish ws parse
      let fields := splitWhitespace line
      let span := fun index => (fields[index]?.map parseSpan).getD ⟨0, 0⟩
      { parse with active := some ⟨span 1, span 2, parse.header ++ line⟩ }
    else
      match parse.active with
      | some hunk => { parse with active := some { hunk with text := hunk.text ++ line } }
      | none => { parse with header := parse.header ++ line }

end HunkParse

def parseHunks (ws : Workspace) (diff : Text) : List DiffHunk :=
  (HunkParse.finish ws ((splitInclusive diff).foldl (HunkParse.line ws) .start)).hunks

namespace Diff

def parse (ws : Workspace) (text : Text) : Diff := ⟨text, parseHunks ws text⟩

/-- The hunks that overlap every range and, when `ids` is not empty, whose id is
listed, in diff order. -/
def select (diff : Diff) (ranges : List (Nat × Nat)) (ids : List Text) : List DiffHunk :=
  (diff.hunks.filter fun hunk => ranges.all fun (start, finish) => hunk.overlaps start finish).filter
    fun hunk => ids.isEmpty || ids.contains hunk.id

end Diff

end CodeWeave
