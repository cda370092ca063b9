import CodeWeave.Defs.Requests.Contract
import CodeWeave.Defs.Requests.OperationLaws
import CodeWeave.Defs.Requests.SchemaLaws

namespace CodeWeave

theorem bind_eq_error {A B : Type} {x : AppResult A} {f : A → AppResult B} {error : AppError} :
    (x >>= f) = .error error ↔ x = .error error ∨ ∃ a, x = .ok a ∧ f a = .error error := by
  cases x with
  | error other =>
    constructor
    · intro failed
      cases failed
      exact .inl rfl
    · rintro (failed | ⟨_, done, _⟩)
      · cases failed
        rfl
      · cases done
  | ok a =>
    constructor
    · exact fun failed => .inr ⟨a, rfl, failed⟩
    · rintro (failed | ⟨_, done, failed⟩)
      · cases failed
      · cases done; exact failed

theorem require_eq_error {condition : Bool} {error other : AppError} :
    require condition error = .error other ↔ condition = false ∧ error = other := by
  cases condition <;> simp [require]

theorem forM_eq_error {A : Type} {check : A → AppResult Unit} {items : List A} {error : AppError}
    (failed : items.forM check = .error error) : ∃ item ∈ items, check item = .error error := by
  induction items with
  | nil => cases failed
  | cons item rest ih =>
    rw [List.forM_eq_forM] at ih failed
    rw [List.forM_cons, bind_eq_error] at failed
    rcases failed with first | ⟨_, _, later⟩
    · exact ⟨item, List.mem_cons_self, first⟩
    · obtain ⟨item, mem, failed⟩ := ih later
      exact ⟨item, List.mem_cons_of_mem _ mem, failed⟩

structure Contract.Conforms (contract : Contract) (object : Fields) : Prop where
  allowed : ∀ field ∈ object.keys, field ∈ contract.allowed
  required : ∀ field ∈ contract.required, (object.get field).isSome
  bounded : ∀ bounds ∈ contract.integers, ∀ value ∈ object.get bounds.field, ∀ n ∈ value.asWide,
    bounds.admits n
  long : ∀ length ∈ contract.minLengths, ∀ text ∈ (object.get length.1).bind Value.asStr,
    length.2 ≤ text.length

namespace Contract

section

variable {contract : Contract} {rejection : Rejection} {object : Fields}

theorem checkBounds_eq_ok {bounds : IntegerBounds} :
    contract.checkBounds rejection object bounds = .ok () ↔
      ∀ value ∈ object.get bounds.field, ∀ n ∈ value.asWide, bounds.admits n := by
  unfold checkBounds
  cases object.get bounds.field with
  | none => simp
  | some value =>
    cases wide : value.asWide with
    | none => simp [wide]
    | some number => simp [wide]

theorem checkLength_eq_ok {length : String × Nat} :
    contract.checkLength rejection object length = .ok () ↔
      ∀ text ∈ (object.get length.1).bind Value.asStr, length.2 ≤ text.length := by
  unfold checkLength
  cases (object.get length.1).bind Value.asStr with
  | none => simp
  | some text => simp

theorem unknownIn_eq_nil :
    contract.unknownIn object = [] ↔ ∀ field ∈ object.keys, field ∈ contract.allowed := by
  simp [unknownIn, List.filter_eq_nil_iff]

theorem missingIn_eq_nil :
    contract.missingIn object = [] ↔ ∀ field ∈ contract.required, (object.get field).isSome := by
  simp [missingIn, List.filter_eq_nil_iff, Option.isSome_iff_ne_none]

theorem check_eq_ok {checked : Fields} : contract.check rejection object = .ok checked ↔
    checked = object.present ∧ contract.Conforms object.present := by
  simp only [check, bind_eq_ok, require_eq_ok, decide_eq_true_eq, forM_eq_ok, checkBounds_eq_ok,
    checkLength_eq_ok, unknownIn_eq_nil, missingIn_eq_nil, Except.ok.injEq]
  constructor
  · rintro ⟨_, allowed, _, required, _, bounded, _, long, rfl⟩
    exact ⟨rfl, allowed, required, bounded, long⟩
  · rintro ⟨rfl, allowed, required, bounded, long⟩
    exact ⟨(), allowed, (), required, (), bounded, (), long, rfl⟩

theorem parse_eq_ok {A : Type} {decode : Fields → Except DecodeFault A} {value : Value} {a : A} :
    contract.parse rejection decode value = .ok a ↔ ∃ object, value = .object object ∧
      contract.Conforms object.present ∧ decode object.present = .ok a := by
  have kept {read : Except DecodeFault A} {fault : DecodeFault → AppError} :
      read.mapError fault = .ok a ↔ read = .ok a := by
    cases read <;> simp [Except.mapError]
  unfold parse
  cases value with
  | object object =>
    simp only [bind_eq_ok, check_eq_ok, kept]
    constructor
    · rintro ⟨_, ⟨rfl, conforms⟩, read⟩
      exact ⟨object, rfl, conforms, read⟩
    · rintro ⟨_, same, conforms, read⟩
      cases same
      exact ⟨_, ⟨rfl, conforms⟩, read⟩
  | null | bool | number | decimal | string | array =>
    constructor
    · intro parsed
      cases parsed
    · rintro ⟨_, same, _⟩
      cases same

theorem checkBounds_error {bounds : IntegerBounds} {error : AppError}
    (failed : contract.checkBounds rejection object bounds = .error error) :
    error.code = rejection.invalidCode := by
  unfold checkBounds at failed
  split at failed
  · cases failed
  · split at failed
    · cases failed
    · obtain ⟨-, rfl⟩ := require_eq_error.mp failed
      rfl

theorem checkLength_error {length : String × Nat} {error : AppError}
    (failed : contract.checkLength rejection object length = .error error) :
    error.code = rejection.invalidCode := by
  unfold checkLength at failed
  split at failed
  · cases failed
  · obtain ⟨-, rfl⟩ := require_eq_error.mp failed
    rfl

theorem check_error {error : AppError} (rejected : contract.check rejection object = .error error) :
    if contract.unknownIn object.present ≠ [] then
      error = rejection.unknown contract (contract.unknownIn object.present)
    else if contract.missingIn object.present ≠ [] then
      error = rejection.missing contract (contract.missingIn object.present)
    else error.code = rejection.invalidCode := by
  simp only [check, bind_eq_error, require_eq_error, require_eq_ok, decide_eq_true_eq,
    decide_eq_false_iff_not] at rejected
  rcases rejected with ⟨unknown, rfl⟩ | ⟨_, known, ⟨missing, rfl⟩ | ⟨_, given, later⟩⟩
  · rw [if_pos unknown]
  · rw [if_neg (not_not_intro known), if_pos missing]
  · rw [if_neg (not_not_intro known), if_neg (not_not_intro given)]
    rcases later with failed | ⟨_, _, failed | ⟨_, _, done⟩⟩
    · obtain ⟨bounds, -, failed⟩ := forM_eq_error failed
      exact checkBounds_error failed
    · obtain ⟨length, -, failed⟩ := forM_eq_error failed
      exact checkLength_error failed
    · cases done

end

end Contract

theorem eq_number_of_asWide {value : Value} {n : Int}
    (wide : value.asWide = some n) : value = .number n := by
  cases value with
  | number m =>
    rw [Value.asWide, Option.ite_none_right_eq_some] at wide
    rw [Option.some.inj wide.2]
  | null | bool | decimal | string | array | object => cases wide

theorem Fields.assertions_eq_true {decimals : Decimals} {declared : List String} {schema : Fields}
    {value : Value} : schema.assertions decimals declared value = true ↔
      ∀ keyword ∈ schema.toList, assertion decimals declared keyword.1 keyword.2 value = true := by
  induction schema using Fields.toList.induct with
  | case1 => simp [toList, assertions]
  | case2 keyword bound rest ih =>
    rw [assertions_cons, Bool.and_eq_true, ih, toList, List.forall_mem_cons]

theorem Fields.membersAccept_eq_true {decimals : Decimals} {properties : Fields} {value : Value} :
    properties.membersAccept decimals value = true ↔ ∀ property ∈ properties.toList,
      ∀ member ∈ value.get property.1, property.2.accepts decimals member = true := by
  induction properties using Fields.toList.induct with
  | case1 => simp [toList, membersAccept]
  | case2 name schema rest ih =>
    rw [membersAccept, Bool.and_eq_true, ih, toList, List.forall_mem_cons, Option.all_eq_true]
    rfl

theorem assertion_of_accepts {decimals : Decimals} {schema : Fields} {value : Value}
    (accepted : (Value.object schema).accepts decimals value = true) {keyword : String}
    {bound : Value} (found : schema.get keyword = some bound) :
    assertion decimals schema.declared keyword bound value = true :=
  Fields.assertions_eq_true.mp accepted (keyword, bound) (Fields.mem_toList_of_get found)

namespace Contract

theorem allowed_fromSchema (name : String) (schema : Fields) :
    (fromSchema name schema).allowed = schema.declared := by
  change (((schema.get "properties").bind Value.asObject).getD []).map Prod.fst = _
  rw [Fields.declared]
  cases schema.get "properties" with
  | none => rfl
  | some properties => cases properties <;> rfl

variable {decimals : Decimals}

theorem accepts_member {schema : Fields} {object : Fields}
    (accepted : (Value.object schema).accepts decimals (.object object) = true)
    {property : String × Value}
    (mem : property ∈ ((schema.get "properties").bind Value.asObject).getD [])
    {value : Value} (found : object.get property.1 = some value) :
    property.2.accepts decimals value = true := by
  cases declared : schema.get "properties" with
  | none => simp [declared] at mem
  | some properties =>
    cases properties with
    | object properties =>
      have asked := assertion_of_accepts accepted declared
      have each : properties.membersAccept decimals (.object object) = true := asked
      rw [declared] at mem
      exact Fields.membersAccept_eq_true.mp each property mem value found
    | null | bool | number | decimal | string | array => simp [declared, Value.asObject] at mem

theorem accepts_keyword {schema value : Value} {keyword : String} {bound : Value}
    (accepted : schema.accepts decimals value = true) (found : schema.get keyword = some bound) :
    ∃ declared, assertion decimals declared keyword bound value = true := by
  cases schema with
  | object schema => exact ⟨schema.declared, assertion_of_accepts accepted found⟩
  | null | bool | number | decimal | string | array => cases found

theorem admits_of_accepts {property : String × Value} {n : Int}
    (accepted : property.2.accepts decimals (.number n) = true) :
    ({ field := property.1, minimum := (property.2.get "minimum").bind Value.asWide,
       maximum := (property.2.get "maximum").bind Value.asWide } : IntegerBounds).admits n := by
  rw [IntegerBounds.admits, Bool.and_eq_true, Option.all_eq_true, Option.all_eq_true]
  refine ⟨fun least read => ?_, fun most read => ?_⟩
  · obtain ⟨bound, found, wide⟩ := Option.bind_eq_some_iff.mp read
    rw [eq_number_of_asWide wide] at found
    obtain ⟨_, asked⟩ := accepts_keyword accepted found
    exact asked
  · obtain ⟨bound, found, wide⟩ := Option.bind_eq_some_iff.mp read
    rw [eq_number_of_asWide wide] at found
    obtain ⟨_, asked⟩ := accepts_keyword accepted found
    exact asked

theorem length_of_accepts {schema : Value} {text : Text} {least : Nat}
    (accepted : schema.accepts decimals (.string text) = true)
    (read : (schema.get "minLength").bind Value.asU64 = some least) : least ≤ text.length := by
  obtain ⟨bound, found, word⟩ := Option.bind_eq_some_iff.mp read
  cases bound with
  | number n =>
    rw [Value.asU64, Option.ite_none_right_eq_some] at word
    obtain ⟨⟨positive, -⟩, same⟩ := word
    obtain ⟨_, asked⟩ := accepts_keyword accepted found
    have long : n ≤ text.length := of_decide_eq_true asked
    have same : n.toNat = least := Option.some.inj same
    omega
  | null | bool | decimal | string | array | object => cases word

theorem required_of_accepts {schema object : Fields}
    (accepted : (Value.object schema).accepts decimals (.object object) = true) {field : String}
    (mem : field ∈ (((schema.get "required").bind Value.asArray).getD []).filterMap fun field =>
      field.asStr.map String.ofList) : (object.get field).isSome := by
  obtain ⟨name, among, named⟩ := List.mem_filterMap.mp mem
  cases found : schema.get "required" with
  | none => simp [found] at among
  | some bound =>
    cases bound with
    | array names =>
      have asked : ((Value.array names).elements.all fun name => name.asStr.all fun name =>
          (object.get (String.ofList name)).isSome) = true := assertion_of_accepts accepted found
      rw [found] at among
      obtain ⟨text, read, rfl⟩ := Option.map_eq_some_iff.mp named
      have present := List.all_eq_true.mp asked name among
      rw [read] at present
      exact present
    | null | bool | number | decimal | string | object => simp [found, Value.asArray] at among

theorem known_of_accepts {schema : Fields}
    (closed : schema.get "additionalProperties" = some (.bool false)) (name : String)
    {object : Fields} (accepted : (Value.object schema).accepts decimals (.object object) = true) :
    (fromSchema name schema).unknownIn object = [] := by
  have asked : (object.toList.all fun member => member.1 ∈ schema.declared || false) = true :=
    assertion_of_accepts accepted closed
  refine unknownIn_eq_nil.mpr fun field mem => ?_
  obtain ⟨member, among, rfl⟩ := List.mem_map.mp mem
  rw [allowed_fromSchema]
  simpa using List.all_eq_true.mp asked member among

theorem conforms_of_accepts {schema : Fields} (name : String) {object : Fields}
    (accepted : (Value.object schema).accepts decimals (.object object) = true)
    (known : (fromSchema name schema).unknownIn object = []) :
    (fromSchema name schema).Conforms object := by
  refine ⟨unknownIn_eq_nil.mp known, fun field mem => required_of_accepts accepted mem,
    fun bounds mem value found n wide => ?_, fun length mem text found => ?_⟩
  · obtain ⟨property, kept, rfl⟩ := List.mem_map.mp mem
    have member := accepts_member accepted (List.mem_of_mem_filter kept) found
    rw [eq_number_of_asWide wide] at member
    exact admits_of_accepts member
  · obtain ⟨property, kept, read⟩ := List.mem_filterMap.mp mem
    obtain ⟨least, word, rfl⟩ := Option.map_eq_some_iff.mp read
    obtain ⟨value, found, isText⟩ := Option.bind_eq_some_iff.mp found
    have member := accepts_member accepted (List.mem_of_mem_filter kept) found
    cases value with
    | string text' =>
      cases isText
      exact length_of_accepts member word
    | null | bool | number | decimal | array | object => cases isText

end Contract

theorem inputSchema_closed (root : Fields) :
    (inputSchema root).get "additionalProperties" = root.get "additionalProperties" := by
  rw [inputSchema, normalize, Fields.rewritten, Fields.constAsEnum_get (by decide) (by decide),
    Fields.withoutNullValue_get (by decide), Fields.withoutNullType_get (by decide),
    Fields.withoutNullDefault_get (by decide), Fields.get_remove_of_ne (by decide),
    Fields.nested_get (by decide) (by decide) (by decide) (by decide),
    Fields.get_remove_of_ne (by decide)]

/-- A contract lets an object through just where its fields conform to it, and its complaint is
about fields that it does not know before it is about fields that are missing and about values
last. An object that the schema of the request's type accepts gets through where its fields are
all known, as they are if that schema is closed. -/
theorem contract_check {root : Fields} (generated : (Value.object root).Throughout Fields.Generated)
    (name : String) (rejection : Rejection) (object : Fields) :
    let contract := Contract.ofGenerated name root
    ((contract.check rejection object).isOk ↔ contract.Conforms object.present) ∧
    (∀ error, contract.check rejection object = .error error →
      if contract.unknownIn object.present ≠ [] then
        error = rejection.unknown contract (contract.unknownIn object.present)
      else if contract.missingIn object.present ≠ [] then
        error = rejection.missing contract (contract.missingIn object.present)
      else error.code = rejection.invalidCode) ∧
    ∀ decimals, (Value.object object.present).NullFree →
      (Value.object root).accepts decimals (.object object.present) = true →
        (contract.check rejection object = .ok object.present ↔
          contract.unknownIn object.present = []) ∧
        (root.get "additionalProperties" = some (.bool false) →
          contract.check rejection object = .ok object.present) := by
  refine ⟨?_, fun error rejected => Contract.check_error rejected, fun decimals free accepted => ?_⟩
  · rw [isOk_iff_exists]
    simp only [Contract.check_eq_ok]
    exact ⟨fun ⟨_, _, conforms⟩ => conforms, fun conforms => ⟨_, rfl, conforms⟩⟩
  · have published : (Value.object (inputSchema root)).accepts decimals (.object object.present) =
        true := by
      rw [(inputSchema_faithful generated).2 decimals _ free, accepted]
    have passes (known : (Contract.ofGenerated name root).unknownIn object.present = []) :
        (Contract.ofGenerated name root).check rejection object = .ok object.present :=
      Contract.check_eq_ok.mpr ⟨rfl, Contract.conforms_of_accepts name published known⟩
    refine ⟨⟨fun passed => ?_, passes⟩, fun closed => passes ?_⟩
    · exact Contract.unknownIn_eq_nil.mpr (Contract.check_eq_ok.mp passed).2.allowed
    · exact Contract.known_of_accepts ((inputSchema_closed root).trans closed) name published

namespace Sample

theorem counted_check :
    let contract := Contract.ofGenerated "sample" counted
    let object := Fields.ofList [("count", .null), ("name", .str "a")]
    contract.Conforms object.present ∧
      contract.check .argument object = .ok (.ofList [("name", .str "a")]) := by
  intro contract object
  obtain ⟨accepts, -, passes⟩ := contract_check counted_generated "sample" .argument object
  have passed : contract.check .argument object = .ok object.present :=
    (passes ⟨fun _ => false, fun _ _ => true, fun _ _ => true⟩ ⟨trivial, trivial⟩ (by decide)).2 rfl
  exact ⟨accepts.mp (by rw [passed]; rfl), passed⟩

end Sample

end CodeWeave
