import CodeWeave.Defs.Occurrences
import Mathlib.Data.Prod.Lex

/-! `symbols`, by bytes: the scan for an identifier, and what the trees of some ranges of lines
say of the occurrences. Nothing is returned where the slicing of a string would panic. -/

namespace CodeWeave

def matchOffsets (content needle : Text) : List Nat :=
  (matchIndices content needle).map fun index => utf8Count (content.take index)

def IsCharBoundary (content : Text) (offset : Nat) : Prop :=
  utf8Count (takeBytes content offset) = offset

instance (content : Text) (offset : Nat) : Decidable (IsCharBoundary content offset) :=
  inferInstanceAs (Decidable (_ = _))

def sliceBytes (content : Text) (start stop : Nat) : Option Text :=
  if start ≤ stop ∧ IsCharBoundary content start ∧ IsCharBoundary content stop then
    some (dropBytes (takeBytes content stop) start)
  else none

structure SyntaxContext where
  role : ReferenceKind
  enclosingSymbol : Option Text

abbrev SyntaxMap := Nat × Nat → Option SyntaxContext

/-- `syntax_contexts` of the tree a path's parser makes of a source, if it makes one: by path,
source, identifier, where the source starts, and the enclosing symbol to fall back to. -/
abbrev SyntaxTrees := Text → Text → Text → Nat → Option Text → Option SyntaxMap

def maxSyntaxRangeLines : Nat := 200

def localContextLines : Nat := 20

def indexedEnclosing (symbols : List Symbol) (occurrence : EnclosedOccurrence) : Option Symbol :=
  minByKey (fun symbol => symbol.endLine - symbol.startLine) (symbols.filter fun symbol =>
    symbol.startLine ≤ occurrence.startLine ∧ occurrence.endLine ≤ symbol.endLine)

def fallbackEnclosing (symbols : List Symbol) (identifier : Text)
    (occurrence : EnclosedOccurrence) : Option Text :=
  ((indexedEnclosing symbols occurrence).filter fun symbol =>
    !(symbol.name = identifier && symbol.startLine = occurrence.startLine)).map Symbol.name

def syntaxRange (symbols : List Symbol) (totalLines : Nat) (occurrence : EnclosedOccurrence) :
    Nat × Nat :=
  let lines := ((indexedEnclosing symbols occurrence).map fun symbol =>
    (symbol.startLine, symbol.endLine)).getD (occurrence.startLine, occurrence.endLine)
  if lines.2 - lines.1 + 1 > maxSyntaxRangeLines then
    (max (occurrence.startLine - localContextLines) 1,
      min (occurrence.endLine + localContextLines) totalLines)
  else lines

abbrev SyntaxRanges := List ((Nat × Nat) × Option Text)

def SyntaxRanges.add (ranges : SyntaxRanges) (lines : Nat × Nat) (enclosing : Option Text) :
    SyntaxRanges :=
  if ranges.any fun range => range.1 = lines then ranges else ranges ++ [(lines, enclosing)]

def SyntaxRanges.sorted (ranges : SyntaxRanges) : SyntaxRanges :=
  ranges.mergeSort fun left right => decide (toLex left.1 ≤ toLex right.1)

def EnclosedOccurrence.inContext (syntaxMap : SyntaxMap) (occurrence : EnclosedOccurrence) :
    EnclosedOccurrence :=
  match syntaxMap (occurrence.startByte, occurrence.endByte) with
  | none => occurrence
  | some context =>
    { occurrence with
      role := context.role
      evidence := .syntactic
      enclosingSymbol := context.enclosingSymbol.or occurrence.enclosingSymbol }

namespace ByBytes

def sourceLineStarts (content : Text) : List Nat :=
  0 :: (matchOffsets content ['\n']).map (· + 1)

def sourcePosition (content : Text) (lineStarts : List Nat) (byte : Nat) : Option (Nat × Nat) := do
  let lineIndex := (lineStarts.takeWhile (· ≤ byte)).length - 1
  let lineStart ← lineStarts[lineIndex]?
  let line ← sliceBytes content lineStart byte
  some (lineIndex + 1, line.length + 1)

def occurrenceAt (chars : CharClasses) (content identifier : Text) (startByte : Nat) :
    Option (Option EnclosedOccurrence) := do
  let endByte := startByte + utf8Count identifier
  let before ← sliceBytes content 0 startByte
  let after ← sliceBytes content endByte (utf8Count content)
  if before.getLast?.any (isIdentifierContinue chars) ||
      after.head?.any (isIdentifierContinue chars) then some none
  else do
    let start ← sourcePosition content (sourceLineStarts content) startByte
    let finish ← sourcePosition content (sourceLineStarts content) endByte
    some (some ⟨⟨startByte, endByte, start.1, start.2, finish.1, finish.2, .other, .lexical⟩, none⟩)

def lexicalIdentifierOccurrences (chars : CharClasses) (content identifier : Text) :
    Option (List EnclosedOccurrence) :=
  ((matchOffsets content identifier).mapM (occurrenceAt chars content identifier)).map
    List.reduceOption

def sourceLineRangeBytes (content : Text) (lineStarts : List Nat) (startLine endLine : Nat) :
    Option (Nat × Nat) := do
  let startByte ← lineStarts[min (startLine - 1) (lineStarts.length - 1)]?
  some (startByte, (lineStarts[min endLine lineStarts.length]?).getD (utf8Count content))

def parseRange (trees : SyntaxTrees) (path content identifier : Text) (syntaxMap : SyntaxMap)
    (range : (Nat × Nat) × Option Text) : Option SyntaxMap := do
  let (startByte, endByte) ←
    sourceLineRangeBytes content (sourceLineStarts content) range.1.1 range.1.2
  let source ← sliceBytes content startByte endByte
  match trees path source identifier startByte range.2 with
  | none => some syntaxMap
  | some contexts => some fun span => (contexts span).or (syntaxMap span)

def syntaxRanges (symbols : List Symbol) (identifier : Text) (totalLines : Nat)
    (occurrences : List EnclosedOccurrence) : SyntaxRanges :=
  if symbols = [] then [((1, totalLines), none)]
  else (occurrences.foldl (fun (ranges : SyntaxRanges) occurrence =>
    ranges.add (syntaxRange symbols totalLines occurrence)
      (fallbackEnclosing symbols identifier occurrence)) []).sorted

-- The lines of a symbol are far below `usize::MAX`, so that none of the sums overflows.
def identifierOccurrencesWithSymbols (chars : CharClasses) (trees : SyntaxTrees)
    (path content identifier : Text) (symbols : List Symbol) :
    Option (List EnclosedOccurrence) := do
  let identifier := trim identifier
  if identifier = [] then some []
  else do
    let occurrences ← lexicalIdentifierOccurrences chars content identifier
    if occurrences = [] then some []
    else do
      let totalLines := max (sourceLineStarts content).length 1
      let outlined :=
        if symbols = [] then occurrences
        else occurrences.map fun occurrence =>
          { occurrence with enclosingSymbol := fallbackEnclosing symbols identifier occurrence }
      let syntaxMap ← (syntaxRanges symbols identifier totalLines occurrences).foldlM
        (parseRange trees path content identifier) fun _ => none
      some (outlined.map (EnclosedOccurrence.inContext syntaxMap))

end ByBytes

end CodeWeave
