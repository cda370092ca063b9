import CodeWeave.Defs.Requests.Operations
import CodeWeave.Defs.Requests.Schema

namespace CodeWeave

inductive Rejection
  | argument
  | bash
  | change
  | changeItem
  deriving DecidableEq

structure IntegerBounds where
  field : String
  minimum : Option Int
  maximum : Option Int

structure Contract where
  name : String
  allowed : List String
  required : List String
  integers : List IntegerBounds
  minLengths : List (String × Nat)

/-- `as_i64`, and else `as_u64`. -/
def Value.asWide : Value → Option Int
  | .number n => if -9223372036854775808 ≤ n ∧ n < 18446744073709551616 then some n else none
  | _ => none

structure DecodeFault where
  field : String
  error : String

namespace Rejection

def unknown (rejection : Rejection) (contract : Contract) (unknown : List String) : AppError :=
  match rejection with
  | .changeItem => .withJson .unknownChangeField "change received unsupported fields"
      [("contract", .str contract.name), ("unknown", strings unknown),
        ("allowed", stringSet contract.allowed)]
  | .argument | .bash | .change => .withJson .unknownToolField
      ("tool '" ++ contract.name ++ "' received unsupported fields")
      [("unknown", strings unknown), ("allowed", stringSet contract.allowed)]

def missing (rejection : Rejection) (contract : Contract) (missing : List String) : AppError :=
  let code := match rejection with
    | .argument => .invalidArgument
    | .bash => .invalidBashRequest
    | .change | .changeItem => .missingChangeField
  .withJson code (contract.name ++ " is missing required fields")
    [("contract", .str contract.name), ("missing", strings missing),
      ("required", strings contract.required)]

def invalidCode : Rejection → ErrorCode
  | .argument => .invalidArgument
  | .bash => .invalidBashRequest
  | .change | .changeItem => .invalidChangeField

def invalid (rejection : Rejection) (message : String) (details : List (String × Value)) :
    AppError :=
  .withJson rejection.invalidCode message details

end Rejection

namespace IntegerBounds

def admits (bounds : IntegerBounds) (n : Int) : Bool :=
  bounds.minimum.all (· ≤ n) && bounds.maximum.all (n ≤ ·)

def range (bounds : IntegerBounds) : String :=
  match bounds.minimum, bounds.maximum with
  | some minimum, some maximum => "from " ++ toString minimum ++ " to " ++ toString maximum
  | some minimum, none => "of at least " ++ toString minimum
  | none, some maximum => "of at most " ++ toString maximum
  | none, none => ""

end IntegerBounds

namespace Contract

def fromSchema (name : String) (schema : Fields) : Contract :=
  let properties := ((schema.get "properties").bind Value.asObject).getD []
  { name
    allowed := properties.map Prod.fst
    required := (((schema.get "required").bind Value.asArray).getD []).filterMap fun field =>
      field.asStr.map String.ofList
    integers := (properties.filter fun property => property.2.field "type" = .str "integer").map
      fun property =>
        { field := property.1
          minimum := (property.2.get "minimum").bind Value.asWide
          maximum := (property.2.get "maximum").bind Value.asWide }
    minLengths := (properties.filter fun property =>
      property.2.field "type" = .str "string").filterMap fun property =>
        ((property.2.get "minLength").bind Value.asU64).map fun length => (property.1, length) }

/-- `Contract::of`, of the schema that is generated for a type. -/
def ofGenerated (name : String) (root : Fields) : Contract := fromSchema name (inputSchema root)

variable (contract : Contract) (rejection : Rejection)

def checkBounds (object : Fields) (bounds : IntegerBounds) : AppResult Unit :=
  match object.get bounds.field with
  | none => .ok ()
  | some value =>
    match value.asWide with
    | none => .ok ()
    | some number => require (bounds.admits number) (rejection.invalid
        (bounds.field ++ " must be an integer " ++ bounds.range)
        [("contract", .str contract.name), ("field", .str bounds.field), ("value", value)])

def checkLength (object : Fields) (length : String × Nat) : AppResult Unit :=
  match (object.get length.1).bind Value.asStr with
  | none => .ok ()
  | some text => require (length.2 ≤ text.length) (rejection.invalid
      (contract.name ++ " field '" ++ length.1 ++ "' must be at least " ++ toString length.2 ++
        " characters") [("contract", .str contract.name), ("field", .str length.1)])

def unknownIn (object : Fields) : List String := object.keys.filter (· ∉ contract.allowed)

def missingIn (object : Fields) : List String :=
  contract.required.filter fun field => (object.get field).isNone

def check (object : Fields) : AppResult Fields := do
  let object := object.present
  require (contract.unknownIn object = []) (rejection.unknown contract (contract.unknownIn object))
  require (contract.missingIn object = []) (rejection.missing contract (contract.missingIn object))
  contract.integers.forM (contract.checkBounds rejection object)
  contract.minLengths.forM (contract.checkLength rejection object)
  .ok object

/-- `parse`, with what the derived deserializer makes of an object that passes. -/
def parse (decode : Fields → Except DecodeFault A) (value : Value) : AppResult A :=
  match value with
  | .object object => do
    let object ← contract.check rejection object
    (decode object).mapError fun fault => rejection.invalid
      (contract.name ++ " field '" ++ fault.field ++ "' is invalid: " ++ fault.error)
      [("contract", .str contract.name), ("field", .str fault.field), ("error", .str fault.error)]
  | _ => .error (rejection.invalid (contract.name ++ " input must be an object")
      [("contract", .str contract.name)])

end Contract

end CodeWeave
