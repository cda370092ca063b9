import CodeWeave.Defs.Requests.Contract
import CodeWeave.Defs.Workspace.Edit

namespace CodeWeave

inductive ResponseDetail
  | compact
  | standard
  | debug
  deriving DecidableEq

def ResponseDetail.spelling : Spelling ResponseDetail where
  all := [.compact, .standard, .debug]
  name
    | .compact => "compact".toList
    | .standard => "standard".toList
    | .debug => "debug".toList
  mem_all detail := by cases detail <;> decide
  name_injective first second := by cases first <;> cases second <;> decide

def InsertPosition.spelling : Spelling InsertPosition where
  all := [.before, .after, .insideStart, .insideEnd]
  name
    | .before => "before".toList
    | .after => "after".toList
    | .insideStart => "inside_start".toList
    | .insideEnd => "inside_end".toList
  mem_all position := by cases position <;> decide
  name_injective first second := by cases first <;> cases second <;> decide

inductive ChangeKind
  | create
  | replace
  | replaceRange
  | insert
  | delete
  | rename
  deriving DecidableEq

inductive EditField
  | text
  | flag (default : Bool)
  | replacements
  | position
  | texts
  | detail

def EditField.schema : EditField → Value
  | .text => json [("type", .str "string")]
  | .flag default => json [("type", .str "boolean"), ("default", .bool default)]
  | .replacements => json [("type", .str "integer"), ("minimum", .number 1), ("default", .number 1)]
  | .position => json [("type", .str "string"),
      ("enum", .list (InsertPosition.spelling.all.map (.string ∘ InsertPosition.spelling.name)))]
  | .texts => json [("type", .str "array"), ("items", json [("type", .str "string")])]
  | .detail => json [("type", .str "string"),
      ("enum", .list (ResponseDetail.spelling.all.map (.string ∘ ResponseDetail.spelling.name))),
      ("default", .str "standard")]

def objectSchema (properties : List (String × Value)) (required : List String) : Fields :=
  .ofList [("type", .str "object"), ("properties", json properties), ("required", strings required),
    ("additionalProperties", .bool false)]

namespace ChangeKind

def asStr : ChangeKind → String
  | .create => "create"
  | .replace => "replace"
  | .replaceRange => "replace_range"
  | .insert => "insert"
  | .delete => "delete"
  | .rename => "rename"

def spelling : Spelling ChangeKind where
  all := [.create, .replace, .replaceRange, .insert, .delete, .rename]
  name kind := kind.asStr.toList
  mem_all kind := by cases kind <;> decide
  name_injective first second := by cases first <;> cases second <;> decide

def fields (overwrites : Bool) : ChangeKind → List (String × EditField)
  | .create => [("path", .text), ("content", .text), ("overwrite", .flag overwrites),
      ("expected_hash", .text)]
  | .replace => [("path", .text), ("old_text", .text), ("new_text", .text),
      ("expected_replacements", .replacements), ("expected_hash", .text), ("handle", .text)]
  | .replaceRange => [("path", .text), ("handle", .text), ("new_text", .text)]
  | .insert => [("path", .text), ("content", .text), ("anchor_symbol", .text),
      ("position", .position), ("expected_hash", .text)]
  | .delete => [("path", .text), ("expected_hash", .text)]
  | .rename => [("path", .text), ("to", .text), ("expected_hash", .text)]

def required : ChangeKind → List String
  | .create => ["path", "content"]
  | .replace => ["path", "old_text", "new_text"]
  | .replaceRange => ["path", "handle", "new_text"]
  | .insert => ["path", "content", "anchor_symbol", "position"]
  | .delete => ["path"]
  | .rename => ["path", "to"]

def properties (overwrites : Bool) (kind : ChangeKind) : List (String × Value) :=
  (kind.fields overwrites).map fun field => (field.1, field.2.schema)

def schema (kind : ChangeKind) : Fields :=
  objectSchema (("kind", json [("type", .str "string"), ("enum", strings [kind.asStr])]) ::
    kind.properties false) ("kind" :: kind.required)

end ChangeKind

def changeSchema : Fields :=
  .ofList [("type", .str "object"),
    ("oneOf", .list (ChangeKind.spelling.all.map fun kind => .object kind.schema))]

def changeContracts : List Contract :=
  (((changeSchema.get "oneOf").bind Value.asArray).getD []).filterMap fun
    | .object branch => do
      let properties ← branch.get "properties"
      let kinds ← ((← properties.get "kind").get "enum").bind Value.asArray
      let kind ← (← kinds.head?).asStr
      some (.fromSchema (String.ofList kind) branch)
    | _ => none

/-- What the deserializers do beside reading the fields: which fault they report, and the name
that they read for an enumeration, in a value as it is or one that is buffered, where that is no
string. -/
structure Deserializer where
  fault : Fields → DecodeFault
  variant : Value → Option Text
  buffered : Value → Option Text

namespace Fields

variable (fields : Fields)

def text (key : String) : Option Text := (fields.get key).bind Value.asStr

def optional (read : Value → Option A) (key : String) : Option (Option A) :=
  match fields.get key with
  | none => some none
  | some value => (read value).map some

end Fields

def Value.kindOf (variant : Value → Option Text) (spelling : Spelling A) (value : Value) :
    Option A :=
  (match value with
    | .string text => some text
    | value => variant value).bind spelling.parse

def ChangeKind.decode (variant : Value → Option Text) (overwrites : Bool) (kind : ChangeKind)
    (fields : Fields) : Option Change := do
  let path ← fields.text "path"
  match kind with
  | .create =>
    let content ← fields.text "content"
    let overwrite ← fields.optional Value.asBool "overwrite"
    let expectedHash ← fields.optional Value.asStr "expected_hash"
    some (.create path content (overwrite.getD overwrites) expectedHash)
  | .replace =>
    let oldText ← fields.text "old_text"
    let newText ← fields.text "new_text"
    let expectedReplacements ← fields.optional Value.asU64 "expected_replacements"
    let expectedHash ← fields.optional Value.asStr "expected_hash"
    let handle ← fields.optional Value.asStr "handle"
    some (.replace path oldText newText (expectedReplacements.getD 1) expectedHash handle)
  | .replaceRange =>
    let handle ← fields.text "handle"
    let newText ← fields.text "new_text"
    some (.replaceRange path handle newText)
  | .insert =>
    let content ← fields.text "content"
    let anchorSymbol ← fields.text "anchor_symbol"
    let position ← (fields.get "position").bind (Value.kindOf variant InsertPosition.spelling)
    let expectedHash ← fields.optional Value.asStr "expected_hash"
    some (.insert path content anchorSymbol position expectedHash)
  | .delete =>
    let expectedHash ← fields.optional Value.asStr "expected_hash"
    some (.delete path expectedHash)
  | .rename =>
    let target ← fields.text "to"
    let expectedHash ← fields.optional Value.asStr "expected_hash"
    some (.rename path target expectedHash)

namespace Change

def kind : Change → ChangeKind
  | .create .. => .create
  | .replace .. => .replace
  | .replaceRange .. => .replaceRange
  | .insert .. => .insert
  | .delete .. => .delete
  | .rename .. => .rename

variable (serde : Deserializer)

def decode (fields : Fields) : Except DecodeFault Change :=
  match (fields.text "kind").bind ChangeKind.spelling.parse |>.bind fun kind =>
      kind.decode serde.buffered false fields with
  | some change => .ok change
  | none => .error (serde.fault fields)

def notBlank (change : Change) : List (String × Text) :=
  ("path", change.path) :: match change with
    | .replaceRange _ handle _ => [("handle", handle)]
    | _ => []

def validate (change : Change) : AppResult Unit :=
  match change.notBlank.find? fun field => trim field.2 = [] with
  | some (field, _) => .error (.withJson .invalidChangeField
      ("change field '" ++ field ++ "' must be a non-empty string") [("field", .str field)])
  | none => .ok ()

def parse (value : Value) : AppResult Change := do
  let object ← okOr (match value with
      | .object object => some object
      | _ => none)
    (.withJson .invalidChangeField "transaction changes must be objects"
      [("field", .str "changes")])
  let kind ← okOr (object.nonBlank "kind") (.withJson .missingChangeField "change requires kind"
    [("field", .str "kind")])
  let contract ← okOr (changeContracts.find? fun contract => contract.name.toList = kind)
    (.withJson .unsupportedChangeKind
      ("unsupported change kind '" ++ String.ofList kind ++ "'")
      [("kind", .string kind), ("supported", strings (changeContracts.map Contract.name))])
  let change ← contract.parse .changeItem (decode serde) value
  change.validate
  .ok change

end Change

structure EditCall extends EditRequest where
  validate : List Text
  responseDetail : ResponseDetail

namespace EditCall

def single (change : Change) (validate : Option (List Text)) (responseDetail : ResponseDetail) :
    AppResult EditCall := do
  change.validate
  .ok { changes := [change], snapshotId := none, preview := false,
        validate := validate.getD [], responseDetail }

def batch (serde : Deserializer) (changes : List Value) (snapshotId : Option SnapshotId)
    (preview : Bool) (validate : Option (List Text)) (responseDetail : ResponseDetail) :
    AppResult EditCall := do
  let changes ← changes.mapM (Change.parse serde)
  .ok { changes, snapshotId, preview, validate := validate.getD [], responseDetail }

end EditCall

section

variable (serde : Deserializer)

def Fields.detail (fields : Fields) : Option ResponseDetail :=
  (fields.optional (Value.kindOf serde.variant ResponseDetail.spelling) "response_detail").map
    (·.getD .standard)

def found (fields : Fields) (read : Option A) : Except DecodeFault A :=
  match read with
  | some result => .ok result
  | none => .error (serde.fault fields)

def narrowSchema (overwrites : Bool) (kind : ChangeKind) : Fields :=
  objectSchema (kind.properties overwrites ++
    [("validate", EditField.texts.schema), ("response_detail", EditField.detail.schema)])
    kind.required

def narrowEdit (name : String) (overwrites : Bool) (kind : ChangeKind) (arguments : Value) :
    AppResult EditCall := do
  let (change, validate, responseDetail) ←
    (Contract.fromSchema name (narrowSchema overwrites kind)).parse .change (fun fields =>
      found serde fields do
        let change ← kind.decode serde.variant overwrites fields
        let validate ← fields.optional Value.asStrings "validate"
        let responseDetail ← fields.detail serde
        some (change, validate, responseDetail)) arguments
  EditCall.single change validate responseDetail

-- A write overwrites where it does not say.
def codeWrite : Value → AppResult EditCall := narrowEdit serde "code_write" true .create
def codeReplace : Value → AppResult EditCall := narrowEdit serde "code_replace" false .replace
def codeReplaceRange : Value → AppResult EditCall :=
  narrowEdit serde "code_replace_range" false .replaceRange
def codeInsert : Value → AppResult EditCall := narrowEdit serde "code_insert" false .insert
def codeDelete : Value → AppResult EditCall := narrowEdit serde "code_delete" false .delete
def codeRename : Value → AppResult EditCall := narrowEdit serde "code_rename" false .rename

def changesSchema : Value := json [("type", .str "array"), ("items", .object changeSchema)]

def previewSchema : Fields :=
  objectSchema [("changes", changesSchema), ("snapshot_id", EditField.text.schema)] ["changes"]

def transactionSchema : Fields :=
  objectSchema [("changes", changesSchema), ("snapshot_id", EditField.text.schema),
    ("validate", EditField.texts.schema), ("response_detail", EditField.detail.schema)] ["changes"]

def codePreview (arguments : Value) : AppResult EditCall := do
  let (changes, snapshotId) ←
    (Contract.fromSchema "code_preview" previewSchema).parse .argument (fun fields =>
      found serde fields do
        let changes ← (fields.get "changes").bind Value.asArray
        let snapshotId ← fields.optional Value.asStr "snapshot_id"
        some (changes, snapshotId)) arguments
  EditCall.batch serde changes snapshotId true none .standard

def codeTransaction (arguments : Value) : AppResult EditCall := do
  let (changes, snapshotId, validate, responseDetail) ←
    (Contract.fromSchema "code_transaction" transactionSchema).parse .argument (fun fields =>
      found serde fields do
        let changes ← (fields.get "changes").bind Value.asArray
        let snapshotId ← fields.optional Value.asStr "snapshot_id"
        let validate ← fields.optional Value.asStrings "validate"
        let responseDetail ← fields.detail serde
        some (changes, snapshotId, validate, responseDetail)) arguments
  EditCall.batch serde changes snapshotId false validate responseDetail

end

end CodeWeave
