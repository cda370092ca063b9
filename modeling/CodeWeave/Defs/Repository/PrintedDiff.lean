import CodeWeave.Defs.LineLaws
import CodeWeave.Defs.Repository.Diff
import CodeWeave.Defs.TrimLaws

namespace CodeWeave

def IsLine (line : Text) : Prop := ∃ body, '\n' ∉ body ∧ line = body ++ ['\n']

structure PrintedSpan where
  start : Nat
  count : Option Nat
  start_lt : start < 18446744073709551616
  count_lt : ∀ n ∈ count, n < 18446744073709551616

namespace PrintedSpan

def span (side : PrintedSpan) : LineSpan := ⟨side.start, side.count.getD 1⟩

def text (side : PrintedSpan) : Text :=
  decimal side.start ++ side.count.elim [] fun count => ',' :: decimal count

end PrintedSpan

structure PrintedHunk where
  old : PrintedSpan
  new : PrintedSpan
  heading : Text
  lines : List Text
  heading_single : '\n' ∉ heading
  isLine : ∀ line ∈ lines, IsLine line
  marked : ∀ line ∈ lines, ∃ c ∈ line.head?, c ∈ [' ', '+', '-', '\\', '\n']

namespace PrintedHunk

def head (hunk : PrintedHunk) : Text :=
  "@@ -".toList ++ hunk.old.text ++ " +".toList ++ hunk.new.text ++ " @@".toList ++ hunk.heading ++
    ['\n']

def text (hunk : PrintedHunk) : Text := hunk.head ++ hunk.lines.flatten

end PrintedHunk

/-- What is printed of one file that is there on the new side. The path stands in its header if
there are hunks. -/
structure PrintedFile where
  names : Text
  header : List Text
  path : Text
  blank : Text
  hunks : List PrintedHunk
  names_single : '\n' ∉ names
  isLine : ∀ line ∈ header, IsLine line
  plain : ∀ line ∈ header, ¬"diff --git ".toList <+: line ∧ ¬"+++ b/".toList <+: line ∧
    ¬"@@ ".toList <+: line
  path_single : '\n' ∉ path
  path_trimmed : trimEnd path = path
  blank_single : '\n' ∉ blank
  blank_white : ∀ c ∈ blank, isWhitespace c = true

namespace PrintedFile

def first (file : PrintedFile) : Text := "diff --git ".toList ++ file.names ++ ['\n']

def pathLine (file : PrintedFile) : Text :=
  "+++ b/".toList ++ file.path ++ file.blank ++ ['\n']

def head (file : PrintedFile) : Text :=
  file.first ++ file.header.flatten ++ if file.hunks = [] then [] else file.pathLine

def text (file : PrintedFile) : Text := file.head ++ (file.hunks.map PrintedHunk.text).flatten

def parts (file : PrintedFile) : List (Text × LineSpan × LineSpan × Text) :=
  file.hunks.map fun hunk => (file.path, hunk.old.span, hunk.new.span, file.head ++ hunk.text)

/-- Where a hunk ends, the last line so far that looks like a path line gives the path. -/
def KeepsPath (file : PrintedFile) : Prop :=
  ∀ n value, (((file.hunks.take n).flatMap PrintedHunk.lines).filterMap
    (stripPrefix "+++ b/".toList)).getLast? = some value → trimEnd value = file.path

end PrintedFile

def DiffHunk.parts (hunk : DiffHunk) : Text × LineSpan × LineSpan × Text :=
  (hunk.path, hunk.old, hunk.new, hunk.text)

def printedDiff (files : List PrintedFile) : Text := (files.map PrintedFile.text).flatten

def RecoversHunks (ws : Workspace) (files : List PrintedFile) : Prop :=
  (Diff.parse ws (printedDiff files)).hunks.map DiffHunk.parts = files.flatMap PrintedFile.parts

end CodeWeave
