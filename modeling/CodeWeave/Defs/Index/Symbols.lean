import CodeWeave.Defs.Index.Store
import CodeWeave.Defs.Json

namespace CodeWeave

def Symbol.json (symbol : Symbol) : Value :=
  CodeWeave.json [("name", .string symbol.name), ("kind", .string symbol.kind),
    ("start_line", .number symbol.startLine), ("end_line", .number symbol.endLine),
    ("signature", .string symbol.signature)]

structure SymbolDefinition where
  path : Text
  symbol : Symbol
  hash : ContentHash
  deriving DecidableEq

def rfind (text needle : Text) : Option Nat :=
  (List.range (text.length + 1)).reverse.find? fun index => needle <+: text.drop index

/-- A qualified name as qualifier and leaf, at its last `.` or `::`. -/
def qualifiedSymbolParts (name : Text) : Option (Text × Text) :=
  let dot := (rfind name ['.']).map fun index => (index, 1)
  let colon := (rfind name [':', ':']).map fun index => (index, 2)
  let last := match dot, colon with
    | some dot, some colon => some (if dot.1 > colon.1 then dot else colon)
    | some dot, none => some dot
    | none, some colon => some colon
    | none, none => none
  last.bind fun (index, width) =>
    let qualifier := name.take index
    let leaf := name.drop (index + width)
    if qualifier ≠ [] ∧ leaf ≠ [] then some (qualifier, leaf) else none

def symbolMatchesQualifiedName (file : FileEntry) (symbol : Symbol) (requested : Text) : Bool :=
  symbol.name = requested ||
    match qualifiedSymbolParts requested with
    | none => false
    | some (qualifier, leaf) =>
      let owner := ((qualifiedSymbolParts qualifier).map Prod.snd).getD qualifier
      symbol.name = leaf && file.symbols.any fun candidate =>
        candidate.name = owner && candidate.startLine ≤ symbol.startLine &&
          symbol.endLine ≤ candidate.endLine &&
          (candidate.startLine < symbol.startLine || symbol.endLine < candidate.endLine)

/-- `CodeIndex::find_symbols` at one path. -/
def CodeIndex.findSymbolsAt (index : CodeIndex) (path name : Text) : List SymbolDefinition :=
  let leafName := ((qualifiedSymbolParts name).map Prod.snd).getD name
  match index.get path with
  | none => []
  | some file =>
    ((file.symbols.filter fun symbol => symbol.name = leafName).filter
      fun symbol => symbolMatchesQualifiedName file symbol name).map
        fun symbol => ⟨file.path, symbol, file.hash⟩

end CodeWeave
