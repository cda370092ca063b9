import CodeWeave.Defs.Requests.Rejected

namespace CodeWeave

/-- What a validator makes of a number that is no integer by its digits. -/
structure Decimals where
  integral : Text → Bool
  atLeast : Text → Int → Bool
  atMost : Text → Int → Bool

def Value.elements : Value → List Value
  | .array items => items.toList
  | _ => []

def Value.members : Value → List (String × Value)
  | .object fields => fields.toList
  | _ => []

def typeHolds (decimals : Decimals) (type : Text) : Value → Bool
  | .null => type = "null".toList
  | .bool _ => type = "boolean".toList
  | .number _ => type = "integer".toList || type = "number".toList
  | .decimal digits => type = "number".toList ||
      (type = "integer".toList && decimals.integral digits)
  | .string _ => type = "string".toList
  | .array _ => type = "array".toList
  | .object _ => type = "object".toList

def typesHold (decimals : Decimals) (types value : Value) : Bool :=
  match types with
  | .string type => typeHolds decimals type value
  | .array types => types.toList.any fun type =>
      type.asStr.any fun type => typeHolds decimals type value
  | _ => false

/-- The keywords that have no schema in them; the others of these are annotations. -/
def keywordHolds (decimals : Decimals) (keyword : String) (bound value : Value) : Bool :=
  match keyword with
  | "type" => typesHold decimals bound value
  | "enum" => value ∈ bound.elements
  | "const" => value = bound
  | "minimum" => match bound, value with
    | .number least, .number n => least ≤ n
    | .number least, .decimal digits => decimals.atLeast digits least
    | _, _ => true
  | "maximum" => match bound, value with
    | .number most, .number n => n ≤ most
    | .number most, .decimal digits => decimals.atMost digits most
    | _, _ => true
  | "minLength" => match bound, value with
    | .number least, .string text => least ≤ text.length
    | _, _ => true
  | "maxLength" => match bound, value with
    | .number most, .string text => text.length ≤ most
    | _, _ => true
  | "minItems" => match bound, value with
    | .number least, .array items => least ≤ items.toList.length
    | _, _ => true
  | "maxItems" => match bound, value with
    | .number most, .array items => items.toList.length ≤ most
    | _, _ => true
  | "required" => match value with
    | .object fields => bound.elements.all fun name =>
        name.asStr.all fun name => (fields.get (String.ofList name)).isSome
    | _ => true
  | _ => true

def Fields.declared (keywords : Fields) : List String :=
  (((keywords.get "properties").getD .null).members).map Prod.fst

mutual

def Value.accepts (decimals : Decimals) : Value → Value → Bool
  | .bool b, _ => b
  | .object keywords, value => keywords.assertions decimals keywords.declared value
  | _, _ => true
termination_by structural schema => schema

def Fields.assertions (decimals : Decimals) (declared : List String) : Fields → Value → Bool
  | .nil, _ => true
  | .cons keyword bound rest, value =>
    (if keyword = "items" then value.elements.all fun item => bound.accepts decimals item
      else if keyword = "properties" then bound.propertiesAccept decimals value
      else if keyword = "additionalProperties" then value.members.all fun member =>
        member.1 ∈ declared || bound.accepts decimals member.2
      else if keyword = "oneOf" then bound.accepting decimals value = 1
      else if keyword = "anyOf" then 0 < bound.accepting decimals value
      else keywordHolds decimals keyword bound value) &&
    rest.assertions decimals declared value
termination_by structural keywords => keywords

def Value.propertiesAccept (decimals : Decimals) : Value → Value → Bool
  | .object properties, value => properties.membersAccept decimals value
  | _, _ => true
termination_by structural properties => properties

def Fields.membersAccept (decimals : Decimals) : Fields → Value → Bool
  | .nil, _ => true
  | .cons name schema rest, value =>
    ((value.get name).all fun member => schema.accepts decimals member) &&
      rest.membersAccept decimals value
termination_by structural properties => properties

def Value.accepting (decimals : Decimals) : Value → Value → Nat
  | .array branches, value => branches.accepting decimals value
  | _, _ => 0
termination_by structural branches => branches

def Items.accepting (decimals : Decimals) : Items → Value → Nat
  | .nil, _ => 0
  | .cons branch rest, value =>
    (if branch.accepts decimals value then 1 else 0) + rest.accepting decimals value
termination_by structural branches => branches

end

def Fields.remove (key : String) : Fields → Fields
  | .nil => .nil
  | .cons name value rest => if name = key then rest else .cons name value (rest.remove key)

def Fields.withoutNullDefault (schema : Fields) : Fields :=
  if schema.get "default" = some .null then schema.remove "default" else schema

/-- No type of a list of types is null, and one that is left is no list. -/
def Fields.withoutNullType (schema : Fields) : Fields :=
  match schema.get "type" with
  | some (.array types) =>
    match types.toList.filter (· ≠ Value.str "null") with
    | [kind] => schema.insert "type" kind
    | types => schema.insert "type" (.list types)
  | _ => schema

def Fields.withoutNullValue (schema : Fields) : Fields :=
  match schema.get "enum" with
  | some (.array values) => schema.insert "enum" (.list (values.toList.filter (· ≠ Value.null)))
  | _ => schema

def Fields.constAsEnum (schema : Fields) : Fields :=
  match schema.get "const" with
  | some value => (schema.remove "const").insert "enum" (.list [value])
  | none => schema

def Fields.rewritten (schema : Fields) : Fields :=
  (schema.remove "format").withoutNullDefault.withoutNullType.withoutNullValue.constAsEnum

mutual

/-- `normalize_value`. The schemas under a schema's keywords are rewritten before its own keywords
here; they are under keywords that `rewritten` leaves alone. -/
def Value.normalized : Value → Value
  | .object schema => .object schema.nested.rewritten
  | value => value
termination_by structural schema => schema

def Fields.nested : Fields → Fields
  | .nil => .nil
  | .cons keyword bound rest =>
    .cons keyword
      (if keyword = "items" then bound.normalized
        else if keyword = "properties" then bound.normalizedProperties
        else if keyword = "oneOf" ∨ keyword = "anyOf" then bound.normalizedBranches
        else bound)
      rest.nested
termination_by structural schema => schema

def Value.normalizedProperties : Value → Value
  | .object properties => .object properties.normalizedEach
  | value => value
termination_by structural properties => properties

def Fields.normalizedEach : Fields → Fields
  | .nil => .nil
  | .cons name schema rest => .cons name schema.normalized rest.normalizedEach
termination_by structural properties => properties

def Value.normalizedBranches : Value → Value
  | .array branches => .array branches.normalizedEach
  | value => value
termination_by structural branches => branches

def Items.normalizedEach : Items → Items
  | .nil => .nil
  | .cons branch rest => .cons branch.normalized rest.normalizedEach
termination_by structural branches => branches

end

def normalize (schema : Fields) : Fields := schema.nested.rewritten

/-- `input_schema`, of the schema that is generated for a type. -/
def inputSchema (root : Fields) : Fields := normalize (root.remove "title")

end CodeWeave
