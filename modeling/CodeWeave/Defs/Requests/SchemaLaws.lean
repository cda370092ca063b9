import CodeWeave.Defs.Requests.Schema

namespace CodeWeave

mutual

def Value.NullFree : Value → Prop
  | .null => False
  | .array items => items.NullFree
  | .object fields => fields.NullFree
  | _ => True
termination_by structural value => value

def Items.NullFree : Items → Prop
  | .nil => True
  | .cons item rest => item.NullFree ∧ rest.NullFree
termination_by structural items => items

def Fields.NullFree : Fields → Prop
  | .nil => True
  | .cons _ value rest => value.NullFree ∧ rest.NullFree
termination_by structural fields => fields

end

mutual

/-- A property of every schema in the value that normalizing it reaches. -/
def Value.Throughout (holds : Fields → Prop) : Value → Prop
  | .object schema => holds schema ∧ schema.ThroughoutKeywords holds
  | _ => True
termination_by structural schema => schema

def Fields.ThroughoutKeywords (holds : Fields → Prop) : Fields → Prop
  | .nil => True
  | .cons keyword bound rest =>
    (if keyword = "items" then bound.Throughout holds
      else if keyword = "properties" then bound.ThroughoutProperties holds
      else if keyword = "oneOf" ∨ keyword = "anyOf" then bound.ThroughoutBranches holds
      else True) ∧ rest.ThroughoutKeywords holds
termination_by structural schema => schema

def Value.ThroughoutProperties (holds : Fields → Prop) : Value → Prop
  | .object properties => properties.ThroughoutEach holds
  | _ => True
termination_by structural properties => properties

def Fields.ThroughoutEach (holds : Fields → Prop) : Fields → Prop
  | .nil => True
  | .cons _ schema rest => schema.Throughout holds ∧ rest.ThroughoutEach holds
termination_by structural properties => properties

def Value.ThroughoutBranches (holds : Fields → Prop) : Value → Prop
  | .array branches => branches.ThroughoutEach holds
  | _ => True
termination_by structural branches => branches

def Items.ThroughoutEach (holds : Fields → Prop) : Items → Prop
  | .nil => True
  | .cons branch rest => branch.Throughout holds ∧ rest.ThroughoutEach holds
termination_by structural branches => branches

end

/-- The keywords of a generated schema: a type list has names only, and one keyword says which
values there are. -/
structure Fields.Plain (schema : Fields) : Prop where
  named : ∀ types, schema.get "type" = some (.array types) → ∀ type ∈ types.toList, type.asStr.isSome
  once : (schema.get "const").isSome → schema.get "enum" = none

structure Fields.Generated (schema : Fields) : Prop where
  plain : schema.Plain
  distinct : schema.keys.Nodup

namespace Fields

theorem get_remove_of_ne {key other : String} (differ : other ≠ key) (fields : Fields) :
    (fields.remove key).get other = fields.get other := by
  induction fields using Fields.remove.induct key with
  | case1 => rfl
  | case2 value rest => rw [remove, if_pos rfl, get, if_neg differ.symm]
  | case3 name value rest same ih => rw [remove, if_neg same, get, get, ih]

theorem get_insert_of_ne {key other : String} (differ : other ≠ key) (value : Value)
    (fields : Fields) : (fields.insert key value).get other = fields.get other := by
  rw [get_insert, if_neg differ]

end Fields

section

variable (decimals : Decimals) (declared : List String)

def assertion (keyword : String) (bound value : Value) : Bool :=
  if keyword = "items" then value.elements.all fun item => bound.accepts decimals item
  else if keyword = "properties" then bound.propertiesAccept decimals value
  else if keyword = "additionalProperties" then value.members.all fun member =>
    member.1 ∈ declared || bound.accepts decimals member.2
  else if keyword = "oneOf" then bound.accepting decimals value = 1
  else if keyword = "anyOf" then 0 < bound.accepting decimals value
  else keywordHolds decimals keyword bound value

namespace Fields

theorem assertions_cons (keyword : String) (bound : Value) (rest : Fields) (value : Value) :
    (cons keyword bound rest).assertions decimals declared value =
      (assertion decimals declared keyword bound value && rest.assertions decimals declared value) :=
  rfl

theorem assertions_remove (keyword : String) (schema : Fields) (value : Value) :
    schema.assertions decimals declared value =
      (((schema.get keyword).all fun bound => assertion decimals declared keyword bound value) &&
        (schema.remove keyword).assertions decimals declared value) := by
  induction schema using Fields.remove.induct keyword with
  | case1 => rfl
  | case2 bound rest => rw [remove, if_pos rfl, get, if_pos rfl, assertions_cons, Option.all_some]
  | case3 name bound rest differ ih =>
    rw [remove, if_neg differ, get, if_neg differ, assertions_cons, assertions_cons, ih,
      Bool.and_left_comm]

theorem assertions_insert (keyword : String) (bound : Value) (schema : Fields) (value : Value) :
    (schema.insert keyword bound).assertions decimals declared value =
      (assertion decimals declared keyword bound value &&
        (schema.remove keyword).assertions decimals declared value) := by
  induction schema using Fields.insert.induct keyword with
  | case1 => rfl
  | case2 old rest => rw [insert, if_pos rfl, remove, if_pos rfl, assertions_cons]
  | case3 name old rest differ ih =>
    rw [insert, if_neg differ, remove, if_neg differ, assertions_cons, assertions_cons, ih,
      Bool.and_left_comm]

theorem assertions_replace {keyword : String} {old new value : Value} {schema : Fields}
    (found : schema.get keyword = some old)
    (same : assertion decimals declared keyword new value =
      assertion decimals declared keyword old value) :
    (schema.insert keyword new).assertions decimals declared value =
      schema.assertions decimals declared value := by
  rw [assertions_insert, assertions_remove decimals declared keyword schema, found,
    Option.all_some, same]

theorem assertions_annotation {keyword : String} {value : Value} {schema : Fields}
    (asks : ∀ bound, assertion decimals declared keyword bound value = true) :
    (schema.remove keyword).assertions decimals declared value =
      schema.assertions decimals declared value := by
  rw [assertions_remove decimals declared keyword schema]
  cases schema.get keyword with
  | none => rfl
  | some bound => rw [Option.all_some, asks bound, Bool.true_and]

end Fields

theorem typeHolds_null {value : Value} (given : value ≠ .null) :
    typeHolds decimals "null".toList value = false := by
  cases value with
  | null => exact absurd rfl given
  | bool | number | decimal | string | array | object => rfl

theorem typesHold_withoutNull (types : Items) {value : Value} (given : value ≠ .null) :
    typesHold decimals (.list (types.toList.filter (· ≠ Value.str "null"))) value =
      typesHold decimals (.array types) value := by
  rw [Value.list, typesHold, typesHold, Items.toList_ofList, List.any_filter]
  congr 1
  funext type
  by_cases null : type = Value.str "null"
  · subst null
    simpa [Value.str, Value.asStr] using typeHolds_null decimals given
  · simp [null]

theorem typesHold_single {type : Value} (named : type.asStr.isSome) (value : Value) :
    typesHold decimals type value = typesHold decimals (.list [type]) value := by
  obtain ⟨name, found⟩ := Option.isSome_iff_exists.mp named
  cases type with
  | string text => simp [typesHold, Value.list, Items.toList_ofList, Value.asStr]
  | null | bool | number | decimal | array | object => cases found

namespace Fields

theorem withoutNullType_get {key : String} (differ : key ≠ "type") (schema : Fields) :
    schema.withoutNullType.get key = schema.get key := by
  unfold withoutNullType
  split
  · split <;> exact get_insert_of_ne differ _ _
  · rfl

theorem withoutNullType_assertions {schema : Fields} (plain : schema.Plain) {value : Value}
    (given : value ≠ .null) :
    schema.withoutNullType.assertions decimals declared value =
      schema.assertions decimals declared value := by
  unfold withoutNullType
  split
  · rename_i types found
    have dropped := typesHold_withoutNull decimals types given
    split
    · rename_i type left
      have named : type.asStr.isSome := by
        refine plain.named types found type (List.mem_of_mem_filter (p := (· ≠ .str "null")) ?_)
        rw [left]
        exact List.mem_singleton_self type
      refine assertions_replace decimals declared found ?_
      calc
        typesHold decimals type value = typesHold decimals (.list [type]) value :=
          typesHold_single decimals named value
        _ = typesHold decimals (.array types) value := by rw [← left, dropped]
    · exact assertions_replace decimals declared found dropped
  · rfl

theorem withoutNullValue_get {key : String} (differ : key ≠ "enum") (schema : Fields) :
    schema.withoutNullValue.get key = schema.get key := by
  unfold withoutNullValue
  split
  · exact get_insert_of_ne differ _ _
  · rfl

theorem withoutNullValue_assertions {schema : Fields} {value : Value} (given : value ≠ .null) :
    schema.withoutNullValue.assertions decimals declared value =
      schema.assertions decimals declared value := by
  unfold withoutNullValue
  split
  · rename_i values found
    refine assertions_replace decimals declared found ?_
    change decide (value ∈ Value.elements _) = decide (value ∈ Value.elements _)
    rw [decide_eq_decide]
    simp [Value.list, Value.elements, given]
  · rfl

theorem constAsEnum_assertions {schema : Fields}
    (once : (schema.get "const").isSome → schema.get "enum" = none) (value : Value) :
    schema.constAsEnum.assertions decimals declared value =
      schema.assertions decimals declared value := by
  unfold constAsEnum
  split
  · rename_i only found
    have unlisted : (schema.remove "const").get "enum" = none := by
      rw [get_remove_of_ne (by decide), once (by rw [found, Option.isSome_some])]
    rw [assertions_insert, assertions_remove decimals declared "const" schema, found,
      Option.all_some, assertions_remove decimals declared "enum" (schema.remove "const"), unlisted,
      Option.all_none, Bool.true_and]
    congr 1
    change decide (value ∈ Value.elements _) = decide (value = only)
    simp [Value.list, Value.elements]
  · rfl

theorem withoutNullDefault_get {key : String} (differ : key ≠ "default") (schema : Fields) :
    schema.withoutNullDefault.get key = schema.get key := by
  unfold withoutNullDefault
  split
  · exact get_remove_of_ne differ schema
  · rfl

theorem withoutNullDefault_assertions (schema : Fields) (value : Value) :
    schema.withoutNullDefault.assertions decimals declared value =
      schema.assertions decimals declared value := by
  unfold withoutNullDefault
  split
  · exact assertions_annotation decimals declared fun _ => rfl
  · rfl

theorem withoutNullValue_of_none {schema : Fields} (missing : schema.get "enum" = none) :
    schema.withoutNullValue = schema := by
  rw [withoutNullValue, missing]

theorem Plain.of_get {schema other : Fields} (plain : schema.Plain)
    (same : ∀ key, key = "type" ∨ key = "const" ∨ key = "enum" → other.get key = schema.get key) :
    other.Plain := by
  refine ⟨fun types => ?_, ?_⟩
  · rw [same "type" (by decide)]
    exact plain.named types
  · rw [same "const" (by decide), same "enum" (by decide)]
    exact plain.once

theorem Plain.bare {schema : Fields} (plain : schema.Plain) :
    (schema.remove "format").withoutNullDefault.Plain := by
  refine plain.of_get fun key read => ?_
  rcases read with rfl | rfl | rfl <;>
    rw [withoutNullDefault_get (by decide), get_remove_of_ne (by decide)]

theorem rewritten_assertions {schema : Fields} (plain : schema.Plain) {value : Value}
    (given : value ≠ .null) :
    schema.rewritten.assertions decimals declared value =
      schema.assertions decimals declared value := by
  have once : let typed := (schema.remove "format").withoutNullDefault.withoutNullType
      (typed.withoutNullValue.get "const").isSome → typed.withoutNullValue.get "enum" = none := by
    intro typed isConst
    rw [withoutNullValue_get (by decide), withoutNullType_get (by decide)] at isConst
    have unlisted : typed.get "enum" = none := by
      rw [withoutNullType_get (by decide)]
      exact plain.bare.once isConst
    rw [withoutNullValue_of_none unlisted, unlisted]
  calc
    schema.rewritten.assertions decimals declared value =
        (schema.remove "format").withoutNullDefault.withoutNullType.withoutNullValue.assertions
          decimals declared value := constAsEnum_assertions decimals declared once value
    _ = (schema.remove "format").withoutNullDefault.withoutNullType.assertions
          decimals declared value := withoutNullValue_assertions decimals declared given
    _ = (schema.remove "format").withoutNullDefault.assertions decimals declared value :=
      withoutNullType_assertions decimals declared plain.bare given
    _ = (schema.remove "format").assertions decimals declared value :=
      withoutNullDefault_assertions decimals declared _ value
    _ = schema.assertions decimals declared value :=
      assertions_annotation decimals declared fun _ => rfl

theorem constAsEnum_get {key : String} (enum : key ≠ "enum") (const : key ≠ "const")
    (schema : Fields) : schema.constAsEnum.get key = schema.get key := by
  unfold constAsEnum
  split
  · rw [get_insert_of_ne enum, get_remove_of_ne const]
  · rfl

theorem nested_get {key : String} (items : key ≠ "items") (properties : key ≠ "properties")
    (oneOf : key ≠ "oneOf") (anyOf : key ≠ "anyOf") (schema : Fields) :
    schema.nested.get key = schema.get key := by
  induction schema using Fields.get.induct key with
  | case1 => rfl
  | case2 value rest => simp [nested, get, items, properties, oneOf, anyOf]
  | case3 name value rest differ ih => rw [nested, get, get, if_neg differ, if_neg differ, ih]

theorem Plain.nested {schema : Fields} (plain : schema.Plain) : schema.nested.Plain := by
  refine plain.of_get fun key read => ?_
  rcases read with rfl | rfl | rfl <;>
    exact nested_get (by decide) (by decide) (by decide) (by decide) schema

theorem normalizedEach_names (properties : Fields) :
    properties.normalizedEach.toList.map Prod.fst = properties.toList.map Prod.fst := by
  induction properties using Fields.toList.induct with
  | case1 => rfl
  | case2 name schema rest ih => simp only [normalizedEach, toList, List.map_cons, ih]

theorem nested_declared (schema : Fields) : schema.nested.declared = schema.declared := by
  unfold declared
  induction schema using Fields.get.induct "properties" with
  | case1 => rfl
  | case2 value rest =>
    cases value with
    | object properties => simpa [nested, get, Value.normalizedProperties, Value.members] using
        normalizedEach_names properties
    | null | bool | number | decimal | string | array => rfl
  | case3 name value rest differ ih => rw [nested, get, get, if_neg differ, if_neg differ, ih]

theorem rewritten_declared (schema : Fields) : schema.rewritten.declared = schema.declared := by
  rw [declared, declared, rewritten, constAsEnum_get (by decide) (by decide),
    withoutNullValue_get (by decide), withoutNullType_get (by decide),
    withoutNullDefault_get (by decide), get_remove_of_ne (by decide)]

end Fields

theorem Value.NullFree.ne_null {value : Value} (free : value.NullFree) : value ≠ .null := by
  rintro rfl
  exact free

theorem Value.NullFree.element {value item : Value} (free : value.NullFree)
    (mem : item ∈ value.elements) : item.NullFree := by
  cases value with
  | array items =>
    change item ∈ items.toList at mem
    induction items using Items.toList.induct with
    | case1 => cases mem
    | case2 first rest ih =>
      rcases List.mem_cons.mp mem with rfl | later
      · exact free.1
      · exact ih free.2 later
  | null | bool | number | decimal | string | object => cases mem

theorem Value.NullFree.get {value member : Value} {name : String} (free : value.NullFree)
    (found : value.get name = some member) : member.NullFree := by
  cases value with
  | object fields =>
    change fields.get name = some member at found
    induction fields using Fields.get.induct name with
    | case1 => cases found
    | case2 first rest =>
      rw [Fields.get, if_pos rfl, Option.some.injEq] at found
      exact found ▸ free.1
    | case3 key first rest differ ih =>
      rw [Fields.get, if_neg differ] at found
      exact ih free.2 found
  | null | bool | number | decimal | string | array => cases found

mutual

theorem Value.accepts_normalized : ∀ (schema : Value), schema.Throughout Fields.Generated →
    ∀ value : Value, value.NullFree →
      schema.normalized.accepts decimals value = schema.accepts decimals value
  | .object schema, generated, value, free => by
    change schema.nested.rewritten.assertions decimals schema.nested.rewritten.declared value = _
    rw [schema.nested.rewritten_declared, schema.nested_declared,
      Fields.rewritten_assertions decimals _ generated.1.plain.nested free.ne_null]
    exact Fields.assertions_nested schema generated.2 schema.declared value free
  | .null, _, _, _ | .bool _, _, _, _ | .number _, _, _, _ | .decimal _, _, _, _
  | .string _, _, _, _ | .array _, _, _, _ => rfl

theorem Fields.assertions_nested : ∀ (schema : Fields), schema.ThroughoutKeywords Fields.Generated →
    ∀ (declared : List String) (value : Value), value.NullFree →
      schema.nested.assertions decimals declared value = schema.assertions decimals declared value
  | .nil, _, _, _, _ => rfl
  | .cons keyword bound rest, generated, declared, value, free => by
    have later := Fields.assertions_nested rest generated.2 declared value free
    have generated := generated.1
    rw [Fields.nested, Fields.assertions_cons, Fields.assertions_cons, later]
    congr 1
    by_cases items : keyword = "items"
    · subst items
      have same : ∀ item ∈ value.elements,
          bound.normalized.accepts decimals item = bound.accepts decimals item :=
        fun item mem => Value.accepts_normalized bound generated item (free.element mem)
      change (value.elements.all fun item => bound.normalized.accepts decimals item) =
        value.elements.all fun item => bound.accepts decimals item
      rw [Bool.eq_iff_iff, List.all_eq_true, List.all_eq_true]
      exact forall₂_congr fun item mem => by rw [same item mem]
    by_cases properties : keyword = "properties"
    · subst properties
      exact Value.propertiesAccept_normalized bound generated value free
    by_cases oneOf : keyword = "oneOf"
    · subst oneOf
      have same := Value.accepting_normalized bound generated value free
      change decide (bound.normalizedBranches.accepting decimals value = 1) = decide _
      rw [same]
    by_cases anyOf : keyword = "anyOf"
    · subst anyOf
      have same := Value.accepting_normalized bound generated value free
      change decide (0 < bound.normalizedBranches.accepting decimals value) = decide _
      rw [same]
    rw [if_neg items, if_neg properties, if_neg (not_or_intro oneOf anyOf)]

theorem Value.propertiesAccept_normalized : ∀ (properties : Value),
    properties.ThroughoutProperties Fields.Generated → ∀ value : Value, value.NullFree →
      properties.normalizedProperties.propertiesAccept decimals value =
        properties.propertiesAccept decimals value
  | .object properties, generated, value, free =>
    Fields.membersAccept_normalized properties generated value free
  | .null, _, _, _ | .bool _, _, _, _ | .number _, _, _, _ | .decimal _, _, _, _
  | .string _, _, _, _ | .array _, _, _, _ => rfl

theorem Fields.membersAccept_normalized : ∀ (properties : Fields),
    properties.ThroughoutEach Fields.Generated → ∀ value : Value, value.NullFree →
      properties.normalizedEach.membersAccept decimals value =
        properties.membersAccept decimals value
  | .nil, _, _, _ => rfl
  | .cons name schema rest, generated, value, free => by
    have later := Fields.membersAccept_normalized rest generated.2 value free
    rw [Fields.normalizedEach, Fields.membersAccept, Fields.membersAccept, later]
    cases found : value.get name with
    | none => rfl
    | some member =>
      rw [Option.all_some, Option.all_some,
        Value.accepts_normalized schema generated.1 member (free.get found)]

theorem Value.accepting_normalized : ∀ (branches : Value),
    branches.ThroughoutBranches Fields.Generated → ∀ value : Value, value.NullFree →
      branches.normalizedBranches.accepting decimals value = branches.accepting decimals value
  | .array branches, generated, value, free => Items.accepting_normalized branches generated value free
  | .null, _, _, _ | .bool _, _, _, _ | .number _, _, _, _ | .decimal _, _, _, _
  | .string _, _, _, _ | .object _, _, _, _ => rfl

theorem Items.accepting_normalized : ∀ (branches : Items),
    branches.ThroughoutEach Fields.Generated → ∀ value : Value, value.NullFree →
      branches.normalizedEach.accepting decimals value = branches.accepting decimals value
  | .nil, _, _, _ => rfl
  | .cons branch rest, generated, value, free => by
    rw [Items.normalizedEach, Items.accepting, Items.accepting,
      Value.accepts_normalized branch generated.1 value free,
      Items.accepting_normalized rest generated.2 value free]

end

namespace Fields

theorem ThroughoutKeywords.remove {holds : Fields → Prop} {schema : Fields} (keyword : String)
    (throughout : schema.ThroughoutKeywords holds) :
    (schema.remove keyword).ThroughoutKeywords holds := by
  induction schema using Fields.remove.induct keyword with
  | case1 => exact throughout
  | case2 value rest =>
    rw [Fields.remove, if_pos rfl]
    exact throughout.2
  | case3 name value rest differ ih =>
    rw [Fields.remove, if_neg differ]
    exact ⟨throughout.1, ih throughout.2⟩

end Fields

end

/-- The keywords of a published schema: no format, no constant, and no null that could be left
out. -/
structure Fields.Published (schema : Fields) : Prop where
  format : schema.get "format" = none
  const : schema.get "const" = none
  default : schema.get "default" ≠ some .null
  type : ∀ types, schema.get "type" = some (.array types) →
    Value.str "null" ∉ types.toList ∧ types.toList.length ≠ 1

namespace Fields

theorem keys_remove (key : String) (fields : Fields) :
    (fields.remove key).keys = fields.keys.erase key := by
  induction fields using Fields.remove.induct key with
  | case1 => rfl
  | case2 value rest => simp [remove, keys, toList]
  | case3 name value rest differ ih =>
    rw [keys] at ih ⊢
    simp [remove, differ, keys, toList, ih]

theorem get_eq_none {key : String} {fields : Fields} : fields.get key = none ↔ key ∉ fields.keys := by
  induction fields using Fields.get.induct key with
  | case1 => simp [get, keys, toList]
  | case2 value rest => simp [get, keys, toList]
  | case3 name value rest differ ih =>
    rw [keys] at ih
    simp [get, keys, toList, differ, ih, Ne.symm differ]

theorem get_remove_self {key : String} {fields : Fields} (distinct : fields.keys.Nodup) :
    (fields.remove key).get key = none := by
  rw [get_eq_none, keys_remove]
  exact distinct.not_mem_erase

theorem keys_insert_of_mem {key : String} {fields : Fields} (value : Value)
    (mem : key ∈ fields.keys) : (fields.insert key value).keys = fields.keys := by
  induction fields using Fields.insert.induct key with
  | case1 => cases mem
  | case2 old rest => simp [insert, keys, toList]
  | case3 name old rest differ ih =>
    rw [keys] at ih
    simp only [keys, toList, List.map_cons, List.mem_cons, Ne.symm differ, false_or] at mem
    simp [insert, keys, toList, differ]
    exact ih mem

theorem withoutNullType_keys (schema : Fields) : schema.withoutNullType.keys = schema.keys := by
  unfold withoutNullType
  split
  · rename_i types found
    have mem : "type" ∈ schema.keys := by
      by_contra missing
      rw [get_eq_none.mpr missing] at found
      cases found
    split <;> exact keys_insert_of_mem _ mem
  · rfl

theorem withoutNullValue_keys (schema : Fields) : schema.withoutNullValue.keys = schema.keys := by
  unfold withoutNullValue
  split
  · rename_i values found
    refine keys_insert_of_mem _ ?_
    by_contra missing
    rw [get_eq_none.mpr missing] at found
    cases found
  · rfl

theorem withoutNullDefault_keys {schema : Fields} (distinct : schema.keys.Nodup) :
    schema.withoutNullDefault.keys.Nodup ∧ schema.withoutNullDefault.get "default" ≠ some .null := by
  unfold withoutNullDefault
  split
  · rw [keys_remove, get_remove_self distinct]
    exact ⟨distinct.erase "default", nofun⟩
  · rename_i default
    exact ⟨distinct, default⟩

theorem withoutNullType_type {schema : Fields} (plain : schema.Plain) (types : Items)
    (found : schema.withoutNullType.get "type" = some (.array types)) :
    Value.str "null" ∉ types.toList ∧ types.toList.length ≠ 1 := by
  unfold withoutNullType at found
  split at found
  · rename_i all listed
    split at found
    · rename_i type left
      have named : type.asStr.isSome := by
        refine plain.named all listed type (List.mem_of_mem_filter (p := (· ≠ .str "null")) ?_)
        rw [left]
        exact List.mem_singleton_self type
      rw [get_insert, if_pos rfl, Option.some.injEq] at found
      rw [found] at named
      cases named
    · rename_i several
      rw [get_insert, if_pos rfl, Option.some.injEq, Value.list, Value.array.injEq] at found
      rw [← found, Items.toList_ofList]
      refine ⟨by simp, fun single => ?_⟩
      obtain ⟨type, left⟩ := List.length_eq_one_iff.mp single
      exact several type left
  · rename_i unlisted
    exact absurd found (unlisted types)

theorem constAsEnum_const {schema : Fields} (distinct : schema.keys.Nodup) :
    schema.constAsEnum.get "const" = none := by
  unfold constAsEnum
  split
  · rw [get_insert_of_ne (by decide), get_remove_self distinct]
  · rename_i missing
    exact missing

theorem rewritten_published {schema : Fields} (plain : schema.Plain)
    (distinct : schema.keys.Nodup) : schema.rewritten.Published := by
  have unformatted : (schema.remove "format").keys.Nodup := by
    rw [keys_remove]
    exact distinct.erase "format"
  obtain ⟨bare, default⟩ := withoutNullDefault_keys unformatted
  let typed := (schema.remove "format").withoutNullDefault.withoutNullType
  have keys : typed.withoutNullValue.keys.Nodup := by
    rw [withoutNullValue_keys, withoutNullType_keys]
    exact bare
  -- a constant is the last to go, and takes nothing with it
  have kept : ∀ key, key ≠ "enum" → key ≠ "const" → schema.rewritten.get key = typed.get key := by
    intro key enum const
    rw [rewritten, constAsEnum_get enum const, withoutNullValue_get enum]
  refine ⟨?_, ?_, ?_, ?_⟩
  · rw [kept "format" (by decide) (by decide), withoutNullType_get (by decide),
      withoutNullDefault_get (by decide), get_remove_self distinct]
  · exact constAsEnum_const keys
  · rw [kept "default" (by decide) (by decide), withoutNullType_get (by decide)]
    exact default
  · rw [kept "type" (by decide) (by decide)]
    exact withoutNullType_type plain.bare

theorem ThroughoutKeywords.insert {holds : Fields → Prop} {schema : Fields} {keyword : String}
    (value : Value) (flat : keyword = "type" ∨ keyword = "enum")
    (throughout : schema.ThroughoutKeywords holds) :
    (schema.insert keyword value).ThroughoutKeywords holds := by
  have under : ∀ rest : Fields, rest.ThroughoutKeywords holds →
      (Fields.cons keyword value rest).ThroughoutKeywords holds := by
    intro rest throughout
    rcases flat with rfl | rfl <;> exact ⟨trivial, throughout⟩
  induction schema using Fields.insert.induct keyword with
  | case1 => exact under .nil throughout
  | case2 old rest =>
    rw [Fields.insert, if_pos rfl]
    exact under rest throughout.2
  | case3 name old rest differ ih =>
    rw [Fields.insert, if_neg differ]
    exact ⟨throughout.1, ih throughout.2⟩

theorem ThroughoutKeywords.rewritten {holds : Fields → Prop} {schema : Fields}
    (throughout : schema.ThroughoutKeywords holds) :
    schema.rewritten.ThroughoutKeywords holds := by
  have bare : (schema.remove "format").withoutNullDefault.ThroughoutKeywords holds := by
    unfold withoutNullDefault
    split
    · exact (throughout.remove "format").remove "default"
    · exact throughout.remove "format"
  have typed : (schema.remove "format").withoutNullDefault.withoutNullType.ThroughoutKeywords
      holds := by
    unfold withoutNullType
    split
    · split <;> exact bare.insert _ (.inl rfl)
    · exact bare
  have valued : (schema.remove "format").withoutNullDefault.withoutNullType.withoutNullValue
      |>.ThroughoutKeywords holds := by
    unfold withoutNullValue
    split
    · exact typed.insert _ (.inr rfl)
    · exact typed
  unfold Fields.rewritten constAsEnum
  split
  · exact (valued.remove "const").insert _ (.inr rfl)
  · exact valued

theorem nested_keys (schema : Fields) : schema.nested.keys = schema.keys := by
  unfold keys
  induction schema using Fields.toList.induct with
  | case1 => rfl
  | case2 name value rest ih => simp only [nested, toList, List.map_cons, ih]

end Fields

mutual

theorem Value.throughout_normalized : ∀ schema : Value, schema.Throughout Fields.Generated →
    schema.normalized.Throughout Fields.Published
  | .object schema, generated => by
    have distinct : schema.nested.keys.Nodup := schema.nested_keys ▸ generated.1.distinct
    exact ⟨Fields.rewritten_published generated.1.plain.nested distinct,
      (Fields.throughout_nested schema generated.2).rewritten⟩
  | .null, _ | .bool _, _ | .number _, _ | .decimal _, _ | .string _, _ | .array _, _ => trivial

theorem Fields.throughout_nested : ∀ schema : Fields, schema.ThroughoutKeywords Fields.Generated →
    schema.nested.ThroughoutKeywords Fields.Published
  | .nil, _ => trivial
  | .cons keyword bound rest, generated => by
    refine ⟨?_, Fields.throughout_nested rest generated.2⟩
    have under := generated.1
    by_cases items : keyword = "items"
    · subst items
      exact Value.throughout_normalized bound under
    by_cases properties : keyword = "properties"
    · subst properties
      exact Value.throughout_normalizedProperties bound under
    by_cases branches : keyword = "oneOf" ∨ keyword = "anyOf"
    · rw [if_neg items, if_neg properties, if_pos branches] at under ⊢
      rw [if_neg items, if_neg properties, if_pos branches]
      exact Value.throughout_normalizedBranches bound under
    rw [if_neg items, if_neg properties, if_neg branches]
    trivial

theorem Value.throughout_normalizedProperties : ∀ properties : Value,
    properties.ThroughoutProperties Fields.Generated →
      properties.normalizedProperties.ThroughoutProperties Fields.Published
  | .object properties, generated => Fields.throughout_normalizedEach properties generated
  | .null, _ | .bool _, _ | .number _, _ | .decimal _, _ | .string _, _ | .array _, _ => trivial

theorem Fields.throughout_normalizedEach : ∀ properties : Fields,
    properties.ThroughoutEach Fields.Generated →
      properties.normalizedEach.ThroughoutEach Fields.Published
  | .nil, _ => trivial
  | .cons _ schema rest, generated =>
    ⟨Value.throughout_normalized schema generated.1,
      Fields.throughout_normalizedEach rest generated.2⟩

theorem Value.throughout_normalizedBranches : ∀ branches : Value,
    branches.ThroughoutBranches Fields.Generated →
      branches.normalizedBranches.ThroughoutBranches Fields.Published
  | .array branches, generated => Items.throughout_normalizedEach branches generated
  | .null, _ | .bool _, _ | .number _, _ | .decimal _, _ | .string _, _ | .object _, _ => trivial

theorem Items.throughout_normalizedEach : ∀ branches : Items,
    branches.ThroughoutEach Fields.Generated →
      branches.normalizedEach.ThroughoutEach Fields.Published
  | .nil, _ => trivial
  | .cons branch rest, generated =>
    ⟨Value.throughout_normalized branch generated.1,
      Items.throughout_normalizedEach rest generated.2⟩

end

/-- The published form of a generated schema is flat throughout, and of the values without null it
accepts those that the schema accepts. -/
theorem inputSchema_faithful {root : Fields}
    (generated : (Value.object root).Throughout Fields.Generated) :
    (Value.object (inputSchema root)).Throughout Fields.Published ∧
      ∀ (decimals : Decimals) (value : Value), value.NullFree →
        (Value.object (inputSchema root)).accepts decimals value =
          (Value.object root).accepts decimals value := by
  have untitled : (root.remove "title").Generated := by
    refine ⟨generated.1.plain.of_get fun key read => ?_, ?_⟩
    · rcases read with rfl | rfl | rfl <;> exact Fields.get_remove_of_ne (by decide) root
    · rw [Fields.keys_remove]
      exact generated.1.distinct.erase "title"
  have generated' : (Value.object (root.remove "title")).Throughout Fields.Generated :=
    ⟨untitled, generated.2.remove "title"⟩
  have declared : (root.remove "title").declared = root.declared := by
    rw [Fields.declared, Fields.get_remove_of_ne (by decide), Fields.declared]
  refine ⟨Value.throughout_normalized _ generated', fun decimals value free => ?_⟩
  calc
    (Value.object (inputSchema root)).accepts decimals value =
        (Value.object (root.remove "title")).accepts decimals value :=
      Value.accepts_normalized decimals (.object (root.remove "title")) generated' value free
    _ = (root.remove "title").assertions decimals root.declared value := by
      rw [Value.accepts, declared]
    _ = (Value.object root).accepts decimals value :=
      Fields.assertions_annotation decimals root.declared fun _ => rfl

namespace Sample

def counted : Fields := .ofList [
  ("title", .str "Sample"), ("type", .str "object"),
  ("properties", json [
    ("name", json [("type", .str "string"), ("minLength", .number 1)]),
    ("count", json [("type", .list [.str "integer", .str "null"]), ("format", .str "uint32"),
      ("minimum", .number 1), ("maximum", .number 10)])]),
  ("required", .list [.str "name"]), ("additionalProperties", .bool false)]

example : .object (inputSchema counted) = json [
    ("type", .str "object"),
    ("properties", json [
      ("name", json [("type", .str "string"), ("minLength", .number 1)]),
      ("count", json [("type", .str "integer"), ("minimum", .number 1), ("maximum", .number 10)])]),
    ("required", .list [.str "name"]), ("additionalProperties", .bool false)] := by
  decide

theorem generated_of_single {schema : Fields}
    (single : ∀ types, schema.get "type" ≠ some (.array types)) (free : schema.get "const" = none)
    (distinct : schema.keys.Nodup) : schema.Generated :=
  ⟨⟨fun types found => absurd found (single types), fun const => by simp [free] at const⟩, distinct⟩

theorem counted_generated : (Value.object counted).Throughout Fields.Generated := by
  have name : (Fields.ofList [("type", .str "string"), ("minLength", .number 1)]).Generated :=
    generated_of_single nofun rfl (by decide)
  have count : (Fields.ofList [("type", .list [.str "integer", .str "null"]),
      ("format", .str "uint32"), ("minimum", .number 1), ("maximum", .number 10)]).Generated := by
    refine ⟨⟨?_, nofun⟩, by decide⟩
    rintro types ⟨⟩
    decide
  exact ⟨generated_of_single nofun rfl (by decide), trivial, trivial,
    ⟨⟨name, trivial, trivial, trivial⟩, ⟨count, trivial, trivial, trivial, trivial, trivial⟩, trivial⟩,
    trivial, trivial, trivial⟩

theorem counted_faithful :
    (Value.object (inputSchema counted)).Throughout Fields.Published ∧
      (Value.object (inputSchema counted)).accepts ⟨fun _ => false, fun _ _ => true, fun _ _ => true⟩
          (json [("name", .str "a"), ("count", .number 11)]) =
        (Value.object counted).accepts ⟨fun _ => false, fun _ _ => true, fun _ _ => true⟩
          (json [("name", .str "a"), ("count", .number 11)]) :=
  (inputSchema_faithful counted_generated).imp_right fun same =>
    same _ (json [("name", .str "a"), ("count", .number 11)]) ⟨trivial, trivial, trivial⟩

end Sample

end CodeWeave
