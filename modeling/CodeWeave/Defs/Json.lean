import CodeWeave.Defs.Text

namespace CodeWeave

mutual

/-- A JSON value. A number that is no integer is kept by its digits. -/
inductive Value
  | null
  | bool (b : Bool)
  | number (n : Int)
  | decimal (digits : Text)
  | string (text : Text)
  | array (items : Items)
  | object (fields : Fields)
  deriving DecidableEq

inductive Items
  | nil
  | cons (item : Value) (rest : Items)
  deriving DecidableEq

inductive Fields
  | nil
  | cons (key : String) (value : Value) (rest : Fields)
  deriving DecidableEq

end

def Items.toList : Items → List Value
  | .nil => []
  | .cons item rest => item :: rest.toList

def Items.ofList : List Value → Items
  | [] => .nil
  | item :: rest => .cons item (.ofList rest)

@[simp] theorem Items.toList_ofList (values : List Value) :
    (Items.ofList values).toList = values := by
  induction values with
  | nil => rfl
  | cons value rest ih => rw [Items.ofList, Items.toList, ih]

def Fields.get (key : String) : Fields → Option Value
  | .nil => none
  | .cons name value rest => if name = key then some value else rest.get key

def Fields.ofList : List (String × Value) → Fields
  | [] => .nil
  | (key, value) :: rest => .cons key value (.ofList rest)

def Fields.toList : Fields → List (String × Value)
  | .nil => []
  | .cons key value rest => (key, value) :: rest.toList

def Fields.insert (key : String) (value : Value) : Fields → Fields
  | .nil => .cons key value .nil
  | .cons name old rest =>
    if name = key then .cons name value rest else .cons name old (rest.insert key value)

theorem Fields.get_insert (key : String) (value : Value) (fields : Fields) (other : String) :
    (fields.insert key value).get other = if other = key then some value else fields.get other := by
  induction fields using Fields.insert.induct key with
  | case1 =>
    rw [insert, get, get]
    exact if_congr eq_comm rfl rfl
  | case2 old rest =>
    rw [insert, if_pos rfl, get, get]
    by_cases eq : key = other
    · rw [if_pos eq, if_pos eq.symm]
    · rw [if_neg eq, if_neg (Ne.symm eq), if_neg eq]
  | case3 name old rest differ ih =>
    rw [insert, if_neg differ, get, get, ih]
    by_cases eq : name = other
    · rw [if_pos eq, if_pos eq, if_neg (fun same => differ (eq.trans same))]
    · rw [if_neg eq, if_neg eq]

def json (fields : List (String × Value)) : Value := .object (.ofList fields)

namespace Value

def list (items : List Value) : Value := .array (.ofList items)

def str (text : String) : Value := .string text.toList

def get (key : String) : Value → Option Value
  | .object fields => fields.get key
  | _ => none

/-- `value[key]`: null where there is no such field. -/
def field (key : String) (value : Value) : Value := (value.get key).getD .null

def insert (key : String) (result value : Value) : Value :=
  match result with
  | .object fields => .object (fields.insert key value)
  | other => other

theorem get_insert_of_ne {key other : String} (differ : other ≠ key) (result value : Value) :
    (result.insert key value).get other = result.get other := by
  cases result with
  | object fields => exact (Fields.get_insert key value fields other).trans (if_neg differ)
  | null | bool | number | decimal | string | array => rfl

def asStr : Value → Option Text
  | .string text => some text
  | _ => none

def asU64 : Value → Option Nat
  | .number n => if 0 ≤ n ∧ n < 18446744073709551616 then some n.toNat else none
  | _ => none

def asInt : Value → Option Int
  | .number n => some n
  | _ => none

def asArray : Value → Option (List Value)
  | .array items => some items.toList
  | _ => none

def asObject : Value → Option (List (String × Value))
  | .object fields => some fields.toList
  | _ => none

end Value

end CodeWeave
