import CodeWeave.Defs.Text
import CodeWeave.Lib.RoundRobin

namespace CodeWeave

variable {T W : Type}

structure Window (T : Type) where
  line : Nat
  startLine : Nat
  endLine : Nat
  hits : List T
  deriving DecidableEq

/-- One file's hits, in line order, in windows. `none` is `usize::MAX`, which no window
reaches. -/
structure WindowBuilder (T : Type) where
  contextLines : Nat
  lineCount : Nat
  maxHitsPerWindow : Option Nat
  windows : List (Window T)

namespace WindowBuilder

def new (contextLines lineCount : Nat) (maxHitsPerWindow : Option Nat) : WindowBuilder T :=
  ⟨contextLines, lineCount, maxHitsPerWindow, []⟩

variable (builder : WindowBuilder T)

def hasRoom (window : Window T) : Bool :=
  builder.maxHitsPerWindow.all fun most => window.hits.length < most

-- The hit joins the last window when their lines touch and the window has room.
def push (startLine endLine : Nat) (hit : T) : WindowBuilder T :=
  let start := max (startLine - builder.contextLines) 1
  let finish := min (endLine + builder.contextLines) builder.lineCount
  let added : WindowBuilder T :=
    { builder with windows := builder.windows ++ [⟨startLine, start, finish, [hit]⟩] }
  match builder.windows.getLast? with
  | none => added
  | some previous =>
    if start ≤ previous.endLine + 1 ∧ builder.hasRoom previous = true then
      let joined := { previous with
        endLine := max previous.endLine finish, hits := previous.hits ++ [hit] }
      { builder with windows := builder.windows.dropLast ++ [joined] }
    else added

end WindowBuilder

structure FileGroups (T : Type) where
  groups : List (List T)
  totalWindows : Nat

structure Interleaved (T : Type) where
  results : List T
  truncated : Bool

namespace FileGroups

def new : FileGroups T := ⟨[], 0⟩

variable (groups : FileGroups T)

def pushExtra (result : T) : FileGroups T := { groups with groups := groups.groups ++ [[result]] }

def pushFile (windows : List W) (perFileLimit : Nat) (render : W → T) : FileGroups T :=
  let group := (windows.take perFileLimit).map render
  { groups := if group.isEmpty then groups.groups else groups.groups ++ [group]
    totalWindows := groups.totalWindows + windows.length }

def sortByFirst (key : T → Nat) : FileGroups T :=
  { groups with groups := groups.groups.mergeSort fun left right =>
      (compare (left.head?.map key) (right.head?.map key)).isLE }

def interleave (limit : Nat) : Interleaved T :=
  let results := RoundRobin.interleave limit groups.groups
  ⟨results, groups.totalWindows > results.length⟩

end FileGroups

end CodeWeave
