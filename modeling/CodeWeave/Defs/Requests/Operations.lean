import CodeWeave.Defs.Requests.Rejected
import CodeWeave.Defs.Workspace.ScopeSpellings
import CodeWeave.Lib.Spelling

namespace CodeWeave

inductive RetrievalKind
  | findFile
  | findSymbol
  | searchText
  | findReferences
  | symbolsOverview
  | repoMap
  | read
  deriving DecidableEq

inductive ReadTargetKind
  | path
  | handle
  | symbol
  | metadata
  | bashStatus
  | bashLog
  | continuation
  deriving DecidableEq

namespace RetrievalKind

def asStr : RetrievalKind → String
  | .findFile => "find_file"
  | .findSymbol => "find_symbol"
  | .searchText => "search_text"
  | .findReferences => "find_references"
  | .symbolsOverview => "symbols_overview"
  | .repoMap => "repo_map"
  | .read => "read"

def spelling : Spelling RetrievalKind where
  all := [.findFile, .findSymbol, .searchText, .findReferences, .symbolsOverview, .repoMap, .read]
  name kind := kind.asStr.toList
  mem_all kind := by cases kind <;> decide
  name_injective first second := by cases first <;> cases second <;> decide

abbrev name (kind : RetrievalKind) : Text := spelling.name kind

end RetrievalKind

namespace ReadTargetKind

def asStr : ReadTargetKind → String
  | .path => "path"
  | .handle => "handle"
  | .symbol => "symbol"
  | .metadata => "metadata"
  | .bashStatus => "bash_status"
  | .bashLog => "bash_log"
  | .continuation => "continuation"

-- `READ_TARGETS`.
def spelling : Spelling ReadTargetKind where
  all := [.path, .handle, .symbol, .metadata, .bashStatus, .bashLog, .continuation]
  name kind := kind.asStr.toList
  mem_all kind := by cases kind <;> decide
  name_injective first second := by cases first <;> cases second <;> decide

end ReadTargetKind

def TextSyntax.spelling : Spelling TextSyntax where
  all := [.literal, .regex]
  name style := style.asStr.toList
  mem_all style := by cases style <;> decide
  name_injective first second := by cases first <;> cases second <;> decide

def ReferenceScope.asStr : ReferenceScope → String
  | .all => "all"
  | .production => "production"
  | .tests => "tests"

def ReferenceScope.spelling : Spelling ReferenceScope where
  all := [.all, .production, .tests]
  name scope := scope.asStr.toList
  mem_all scope := by cases scope <;> decide
  name_injective first second := by cases first <;> cases second <;> decide

def ReferenceKind.spelling : Spelling ReferenceKind where
  all := [.declaration, .call, .imported, .typed, .read, .write, .other]
  name kind := kind.asStr.toList
  mem_all kind := by cases kind <;> decide
  name_injective first second := by cases first <;> cases second <;> decide

structure ContractSpec where
  name : String
  required : List String
  optional : List String

def ContractSpec.allowedFields (contract : ContractSpec) : List String :=
  contract.required ++ contract.optional

-- The entries of `RETRIEVAL_CONTRACTS`.
def RetrievalKind.contract : RetrievalKind → ContractSpec
  | .findFile => ⟨"find_file", ["operation", "name"],
      ["id", "path", "paths", "max_results", "context_lines", "case_sensitive",
        "response_detail"]⟩
  | .findSymbol => ⟨"find_symbol", ["operation", "symbol"],
      ["id", "path", "paths", "max_results", "context_lines", "case_sensitive",
        "response_detail"]⟩
  | .searchText => ⟨"search_text", ["operation", "pattern"],
      ["id", "syntax", "path", "paths", "max_results", "context_lines", "case_sensitive",
        "response_detail"]⟩
  | .findReferences => ⟨"find_references", ["operation", "symbol"],
      ["id", "path", "paths", "max_results", "context_lines", "case_sensitive",
        "reference_scope", "reference_kinds", "definition_path", "definition_line",
        "response_detail"]⟩
  | .symbolsOverview => ⟨"symbols_overview", ["operation"],
      ["id", "path", "paths", "max_results", "response_detail"]⟩
  | .repoMap => ⟨"repo_map", ["operation"],
      ["id", "path", "paths", "max_results", "response_detail"]⟩
  | .read => ⟨"read", ["operation", "target", "value"],
      ["id", "path", "start_line", "end_line", "surrounding_lines", "include_imports",
        "max_chars", "response_detail"]⟩

def retrievalContract (name : Text) : Option ContractSpec :=
  (RetrievalKind.spelling.parse name).map RetrievalKind.contract

def retrievalOperationNames : List String := RetrievalKind.spelling.all.map RetrievalKind.asStr

def strings (texts : List String) : Value := .list (texts.map Value.str)

-- A `BTreeSet` is written in order.
def stringSet (texts : List String) : Value := strings (texts.insertionSort (· ≤ ·))

def unsupportedOperation (kind : Text) : AppError :=
  .withJson .unsupportedRetrievalOperation
    ("unsupported retrieval operation '" ++ String.ofList kind ++ "'")
    [("operation", .string kind), ("supported", strings retrievalOperationNames)]

def unknownFields (contract : ContractSpec) (object : Fields) : List String :=
  object.keys.filter (· ∉ contract.allowedFields)

def missingFields (contract : ContractSpec) (object : Fields) : List String :=
  contract.required.filter fun field => (object.get field).getD .null = .null

def validateFields (contract : ContractSpec) (object : Fields) (missingCode unknownCode : ErrorCode)
    (context : String) : AppResult Unit := do
  require (unknownFields contract object = []) (.withJson unknownCode
    (context ++ " received unsupported fields")
    [("contract", .str contract.name), ("unknown", strings (unknownFields contract object)),
      ("allowed", stringSet contract.allowedFields)])
  require (missingFields contract object = []) (.withJson missingCode
    (context ++ " is missing required fields")
    [("contract", .str contract.name), ("missing", strings (missingFields contract object)),
      ("required", strings contract.required)])

def Fields.nonBlank (object : Fields) (field : String) : Option Text :=
  ((object.get field).bind Value.asStr).filter fun value => trim value ≠ []

def requireNonEmptyString (object : Fields) (code : ErrorCode) (context field : String) :
    AppResult Unit :=
  require (object.nonBlank field).isSome (.withJson code
    (context ++ " field '" ++ field ++ "' must be a non-empty string") [("field", .str field)])

def Value.asStrings (value : Value) : Option (List Text) :=
  value.asArray.bind fun items => items.mapM Value.asStr

def responseDetails : List String := ["compact", "standard", "debug"]

def validateRetrievalOperation (kind : Text) (operation : Fields) : AppResult Unit := do
  let contract ← okOr (retrievalContract kind) (unsupportedOperation kind)
  validateFields contract operation .missingOperationField .unknownOperationField
    "retrieval operation"
  (contract.required.filter (· ≠ "operation")).forM
    (requireNonEmptyString operation .invalidOperationField "retrieval operation")
  let hasPath := (operation.nonBlank "path").isSome
  let hasPaths := ((operation.get "paths").bind Value.asArray).any fun values => values ≠ []
  require (contract.name ≠ "symbols_overview" || hasPath || hasPaths)
    (.withJson .missingOperationField "symbols_overview requires path or paths"
      [("operation", .string kind), ("required_any", strings ["path", "paths"])])
  require ((operation.get "paths").all fun value => value.asStrings.isSome)
    (.withJson .invalidOperationField "retrieval operation paths must be an array of strings"
      [("operation", .string kind), ("field", .str "paths")])
  require ((operation.get "response_detail").all (· ∈ responseDetails.map Value.str))
    (.withJson .invalidOperationField "response_detail must be compact, standard, or debug"
      [("operation", .string kind), ("field", .str "response_detail")])

inductive FieldType
  | text
  | texts
  | count
  | flag
  deriving DecidableEq

-- The fields of `RetrievalOperationInput` with their types.
def operationFields : List (String × FieldType) :=
  [("id", .text), ("operation", .text), ("name", .text), ("symbol", .text), ("pattern", .text),
    ("syntax", .text), ("target", .text), ("value", .text), ("path", .text), ("paths", .texts),
    ("max_results", .count), ("context_lines", .count), ("case_sensitive", .flag),
    ("reference_scope", .text), ("reference_kinds", .texts), ("definition_path", .text),
    ("definition_line", .count), ("start_line", .count), ("end_line", .count),
    ("surrounding_lines", .count), ("include_imports", .flag), ("max_chars", .count),
    ("response_detail", .text)]

def Value.asBool : Value → Option Bool
  | .bool b => some b
  | _ => none

def FieldType.fault : FieldType → Value → Option String
  | .text, value => if value.asStr.isSome then none else some ""
  | .count, value => if value.asU64.isSome then none else some ""
  | .flag, value => if value.asBool.isSome then none else some ""
  | .texts, .array items =>
    (items.toList.findIdx? fun item => item.asStr.isNone).map fun index =>
      "[" ++ toString index ++ "]"
  | .texts, _ => some ""

def fieldFault (field : String × Value) : Option String :=
  (operationFields.lookup field.1).bind fun type =>
    (type.fault field.2).map fun below => field.1 ++ below

structure OperationInput extends RetrievalOperationInput where
  name : Option Text
  symbol : Option Text
  pattern : Option Text
  style : Option Text
  target : Option Text
  value : Option Text
  maxResults : Option Nat
  contextLines : Option Nat
  caseSensitive : Option Bool
  referenceScope : Option Text
  referenceKinds : Option (List Text)
  definitionPath : Option Text
  definitionLine : Option Nat
  startLine : Option Nat
  endLine : Option Nat
  surroundingLines : Option Nat
  includeImports : Option Bool
  maxChars : Option Nat
  responseDetail : Option Text

def OperationInput.ofFields (fields : Fields) : OperationInput :=
  let text field := (fields.get field).bind Value.asStr
  let texts field := (fields.get field).bind Value.asStrings
  let count field := (fields.get field).bind Value.asU64
  let flag field := (fields.get field).bind Value.asBool
  { path := text "path", paths := texts "paths", name := text "name", symbol := text "symbol"
    pattern := text "pattern", style := text "syntax", target := text "target"
    value := text "value", maxResults := count "max_results"
    contextLines := count "context_lines", caseSensitive := flag "case_sensitive"
    referenceScope := text "reference_scope", referenceKinds := texts "reference_kinds"
    definitionPath := text "definition_path", definitionLine := count "definition_line"
    startLine := count "start_line", endLine := count "end_line"
    surroundingLines := count "surrounding_lines", includeImports := flag "include_imports"
    maxChars := count "max_chars", responseDetail := text "response_detail" }

/-- Deserialize the operation. A field of the wrong type is an error; null counts as omitted.
`explain` is what serde says of a value that is not of its field's type. -/
def typedOperation (explain : String → Value → String) (kind : Text) (operation : Fields) :
    AppResult OperationInput :=
  match operation.present.toList.findSome? fieldFault with
  | none => .ok (.ofFields operation.present)
  | some field => .error (.withJson .invalidOperationField
      ("retrieval operation field '" ++ field ++ "' is invalid: " ++
        explain field (.object operation.present))
      [("operation", .string kind), ("field", .str field)])

/-- What a search looks for; `index` are the targets that the index alone serves. -/
inductive OperationTarget
  | index (target : SearchTarget)
  | references (query : ReferenceQuery) (definitionPath : Option Text)
      (definitionLine : Option Nat)
  | outline

structure SearchOperation where
  target : OperationTarget
  paths : List Text
  maxResults : Nat

inductive ReadOperationTarget
  | content (target : RetrievalTarget)
  | metadata (path : Text)
  | bashStatus (value : Text)

structure ReadRequest where
  target : ReadOperationTarget
  maxChars : Nat
  compact : Bool

inductive ParsedOperation
  | search (operation : SearchOperation)
  | read (request : ReadRequest)

def required (field : String) (value : Option Text) : AppResult Text :=
  okOr (value.filter fun value => trim value ≠ []) (.withJson .invalidOperationField
    ("retrieval operation field '" ++ field ++ "' must be a non-empty string")
    [("field", .str field)])

def parseSyntax (kind : Text) : Option Text → AppResult TextSyntax
  | none => .ok .literal
  | some value => okOr (TextSyntax.spelling.parse value) (.withJson .invalidOperationField
      "search_text syntax must be literal or regex"
      [("operation", .string kind), ("field", .str "syntax")])

def parseScope : Option Text → AppResult ReferenceScope
  | none => .ok .all
  | some value => okOr (ReferenceScope.spelling.parse value)
      (.invalid "reference_scope must be all, production, or tests")

def referenceQuery (input : OperationInput) (contextLines : Nat) : AppResult OperationTarget := do
  let symbol ← required "symbol" input.symbol
  let scope ← parseScope input.referenceScope
  let kinds ← okOr ((input.referenceKinds.getD []).mapM ReferenceKind.spelling.parse)
    (.invalid "reference_kinds contains an unsupported kind")
  .ok (.references ⟨symbol, scope, kinds, contextLines⟩ input.definitionPath input.definitionLine)

def readTargetOf (input : OperationInput) (value : Text) : ReadTargetKind → ReadOperationTarget
  | .path => .content (.file (.path value input.startLine input.endLine))
  | .handle => .content (.file (.handle value))
  | .symbol => .content (.symbol value input.path (min (input.surroundingLines.getD 0) 200)
      (input.includeImports.getD false))
  | .metadata => .metadata value
  | .bashStatus => .bashStatus value
  | .bashLog => .content (.bashLog value)
  | .continuation => .content (.file (.continuation value))

def readOperation (input : OperationInput) : AppResult ReadRequest := do
  let target ← required "target" input.target
  let value ← required "value" input.value
  let kind ← okOr (ReadTargetKind.spelling.parse target) (.withJson .unsupportedReadTarget
    ("unsupported read target '" ++ String.ofList target ++ "'")
    [("target", .string target),
      ("supported", strings (ReadTargetKind.spelling.all.map ReadTargetKind.asStr))])
  .ok ⟨readTargetOf input value kind, min (input.maxChars.getD 30000) maxReadMaxChars,
    input.responseDetail = some "compact".toList⟩

def searchTarget (kind : Text) (input : OperationInput) : RetrievalKind → AppResult OperationTarget
  | .findFile => do
    let name ← required "name" input.name
    .ok (.index (.filename ⟨name, input.caseSensitive.getD false⟩))
  | .findSymbol => do
    let symbol ← required "symbol" input.symbol
    .ok (.index (.symbol ⟨symbol⟩))
  | .searchText => do
    let pattern ← required "pattern" input.pattern
    let style ← parseSyntax kind input.style
    .ok (.index (.text ⟨pattern, style, input.caseSensitive.getD false,
      min (input.contextLines.getD 2) 20⟩))
  | .findReferences => referenceQuery input (min (input.contextLines.getD 2) 20)
  | .symbolsOverview => do
    require (input.scopePaths ≠ []) (.invalid "symbols_overview requires path or paths")
    .ok .outline
  | .repoMap => .ok (.index .repoMap)
  | .read => .error (unsupportedOperation kind)

def parseOperation (kind : Text) (input : OperationInput) : AppResult ParsedOperation :=
  match RetrievalKind.spelling.parse kind with
  | none => .error (unsupportedOperation kind)
  | some .read => (readOperation input).map .read
  | some known => (searchTarget kind input known).map fun target =>
      .search ⟨target, input.scopePaths, input.maxResults.getD 20⟩

def prepareRetrievalOperation (explain : String → Value → String) (kind : Text)
    (operation : Fields) : AppResult ParsedOperation := do
  validateRetrievalOperation kind operation
  let input ← typedOperation explain kind operation
  parseOperation kind input

end CodeWeave
