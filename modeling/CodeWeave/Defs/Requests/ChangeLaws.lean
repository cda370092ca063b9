import CodeWeave.Defs.Requests.Changes
import CodeWeave.Defs.Requests.ContractLaws
import CodeWeave.Defs.Requests.Rendered

namespace CodeWeave

def EditField.Reads (variant : Value → Option Text) : EditField → Value → Prop
  | .text, value => value.asStr.isSome
  | .flag _, value => value.asBool.isSome
  | .replacements, value => value.asU64.isSome
  | .position, value => (value.kindOf variant InsertPosition.spelling).isSome
  | .texts, value => value.asStrings.isSome
  | .detail, value => (value.kindOf variant ResponseDetail.spelling).isSome

def EditField.Plain : EditField → Value → Prop
  | .replacements, value => value.asU64.isSome
  | .position, value | .detail, value => value.asStr.isSome
  | _, _ => True

theorem asStr_isSome {value : Value} : value.asStr.isSome ↔ ∃ text, value = .string text := by
  cases value <;> simp [Value.asStr]

section

variable {decimals : Decimals} {value : Value}

theorem accepts_text : EditField.text.schema.accepts decimals value = true ↔ value.asStr.isSome := by
  cases value <;> simp [EditField.schema, json, Fields.ofList, Value.accepts, Fields.assertions,
    keywordHolds, typesHold, typeHolds, Value.str, Value.asStr]

theorem accepts_flag {default : Bool} :
    (EditField.flag default).schema.accepts decimals value = true ↔ value.asBool.isSome := by
  cases value <;> simp [EditField.schema, json, Fields.ofList, Value.accepts, Fields.assertions,
    keywordHolds, typesHold, typeHolds, Value.str, Value.asBool]

theorem accepts_replacements {n : Int} :
    EditField.replacements.schema.accepts decimals (.number n) = true ↔ 1 ≤ n := by
  simp [EditField.schema, json, Fields.ofList, Value.accepts, Fields.assertions,
    keywordHolds, typesHold, typeHolds, Value.str]

theorem accepts_names {A : Type} {spelling : Spelling A} {rest : Fields}
    (annotations : rest.assertions decimals [] value = true)
    (undeclared : rest.get "properties" = none) :
    (Value.object (.cons "type" (.str "string") (.cons "enum"
        (.list (spelling.all.map (.string ∘ spelling.name))) rest))).accepts decimals value = true ↔
      ∃ a, value = .string (spelling.name a) := by
  have declared : (Fields.cons "type" (.str "string") (.cons "enum"
      (.list (spelling.all.map (.string ∘ spelling.name))) rest)).declared = [] := by
    simp [Fields.declared, Fields.get, undeclared, Value.members]
  rw [Value.accepts, declared, Fields.assertions_cons, Fields.assertions_cons, annotations,
    Bool.and_true, Bool.and_eq_true]
  change typesHold decimals (.str "string") value = true ∧
    decide (value ∈ Value.elements (.list _)) = true ↔ _
  simp only [Value.list, Value.elements, Items.toList_ofList, decide_eq_true_eq, List.mem_map,
    Function.comp]
  constructor
  · rintro ⟨-, a, -, rfl⟩
    exact ⟨a, rfl⟩
  · rintro ⟨a, rfl⟩
    exact ⟨by simp [typesHold, typeHolds, Value.str], a, spelling.mem_all a, rfl⟩

theorem accepts_position : EditField.position.schema.accepts decimals value = true ↔
    ∃ position, value = .string (InsertPosition.spelling.name position) :=
  accepts_names rfl rfl

theorem accepts_detail : EditField.detail.schema.accepts decimals value = true ↔
    ∃ detail, value = .string (ResponseDetail.spelling.name detail) :=
  accepts_names rfl rfl

theorem kindOf_string {A : Type} {variant : Value → Option Text} {spelling : Spelling A}
    {text : Text} : ((Value.string text).kindOf variant spelling).isSome ↔
      ∃ a, spelling.name a = text := by
  rw [Value.kindOf, Option.bind_some, Option.isSome_iff_exists]
  exact exists_congr fun a => spelling.parse_eq_some

theorem accepts_texts :
    EditField.texts.schema.accepts decimals value = true ↔ value.asStrings.isSome := by
  cases value with
  | array items =>
    have each : EditField.texts.schema.accepts decimals (.array items) =
        items.toList.all fun item => EditField.text.schema.accepts decimals item := by
      simp [EditField.schema, json, Fields.ofList, Value.accepts, Fields.assertions,
        keywordHolds, typesHold, typeHolds, Value.str, Value.elements]
    rw [each, List.all_eq_true, Value.asStrings, Value.asArray, Option.bind_some, mapM_isSome]
    exact forall₂_congr fun item _ => accepts_text
  | null | bool | number | decimal | string | object =>
    simp [EditField.schema, json, Fields.ofList, Value.accepts, Fields.assertions,
      keywordHolds, typesHold, typeHolds, Value.str, Value.asStrings, Value.asArray]

theorem accepts_plain {field : EditField} (word : field = .replacements → value.asU64.isSome)
    (accepted : field.schema.accepts decimals value = true) : field.Plain value := by
  cases field with
  | replacements => exact word rfl
  | position =>
    obtain ⟨position, rfl⟩ := accepts_position.mp accepted
    rfl
  | detail =>
    obtain ⟨detail, rfl⟩ := accepts_detail.mp accepted
    rfl
  | text | flag | texts => trivial

theorem accepts_iff_reads {variant : Value → Option Text} {field : EditField}
    (plain : field.Plain value) : field.schema.accepts decimals value = true ↔
      field.Reads variant value ∧ (field = .replacements → ∀ n, value = .number n → 1 ≤ n) := by
  have string {A : Type} (spelling : Spelling A) (text : Text) :
      (∃ a, Value.string text = .string (spelling.name a)) ↔
        ((Value.string text).kindOf variant spelling).isSome := by
    rw [kindOf_string]
    exact exists_congr fun a => by rw [Value.string.injEq, eq_comm]
  cases field with
  | text => simp [accepts_text, EditField.Reads]
  | flag default => simp [accepts_flag, EditField.Reads]
  | replacements =>
    cases value with
    | number n => simp [accepts_replacements, EditField.Reads, show (Value.asU64 _).isSome from plain]
    | null | bool | decimal | string | array | object => cases plain
  | position =>
    obtain ⟨text, rfl⟩ := asStr_isSome.mp plain
    rw [accepts_position, string, EditField.Reads]
    simp
  | texts => simp [accepts_texts, EditField.Reads]
  | detail =>
    obtain ⟨text, rfl⟩ := asStr_isSome.mp plain
    rw [accepts_detail, string, EditField.Reads]
    simp

theorem accepts_objectSchema {properties : List (String × Value)} {required : List String}
    {object : Fields} :
    (Value.object (objectSchema properties required)).accepts decimals (.object object) = true ↔
      (∀ property ∈ properties, ∀ member ∈ object.get property.1,
        property.2.accepts decimals member = true) ∧
      (∀ field ∈ required, (object.get field).isSome) ∧
      ∀ field ∈ object.keys, field ∈ properties.map Prod.fst := by
  have declared : (objectSchema properties required).declared = properties.map Prod.fst := by
    simp [objectSchema, Fields.declared, Fields.ofList, Fields.get, json, Value.members]
  have asked : assertion decimals (properties.map Prod.fst) "properties" (json properties)
      (.object object) = true ↔ ∀ property ∈ properties, ∀ member ∈ object.get property.1,
        property.2.accepts decimals member = true := by
    refine Iff.trans Fields.membersAccept_eq_true ?_
    rw [Fields.toList_ofList]
    rfl
  have given : assertion decimals (properties.map Prod.fst) "required" (strings required)
      (.object object) = true ↔ ∀ field ∈ required, (object.get field).isSome := by
    change ((Value.elements (strings required)).all fun name => name.asStr.all fun name =>
      (object.get (String.ofList name)).isSome) = true ↔ _
    simp [strings, Value.list, Value.elements, Value.str, Value.asStr]
  have closed : assertion decimals (properties.map Prod.fst) "additionalProperties" (.bool false)
      (.object object) = true ↔ ∀ field ∈ object.keys, field ∈ properties.map Prod.fst := by
    change (object.toList.all fun member => member.1 ∈ properties.map Prod.fst || false) = true ↔ _
    rw [List.all_eq_true, Fields.keys, List.forall_mem_map]
    simp
  rw [Value.accepts, declared, Fields.assertions_eq_true, objectSchema, Fields.toList_ofList]
  simp only [List.forall_mem_cons, asked, given, closed, List.not_mem_nil, false_imp_iff,
    implies_true, and_true]
  exact and_iff_right rfl

end

namespace ChangeKind

section

variable {variant : Value → Option Text} {overwrites : Bool} {kind : ChangeKind} {object : Fields}

theorem optional_isSome {A : Type} {read : Value → Option A} {key : String} :
    (object.optional read key).isSome ↔ ∀ value ∈ object.get key, (read value).isSome := by
  unfold Fields.optional
  cases object.get key <;> simp

theorem text_isSome {key : String} : (object.text key).isSome ↔
    (object.get key).isSome ∧ ∀ value ∈ object.get key, value.asStr.isSome := by
  unfold Fields.text
  cases object.get key <;> simp

theorem decode_isSome : (kind.decode variant overwrites object).isSome ↔
    (∀ field ∈ kind.required, (object.get field).isSome) ∧
      ∀ field ∈ kind.fields overwrites, ∀ value ∈ object.get field.1,
        field.2.Reads variant value := by
  have any_const {A : Type} (read : Option A) (b : Bool) :
      (read.any fun _ => b) = (read.isSome && b) := by cases read <;> rfl
  have position : ((object.get "position").any fun value =>
      (value.kindOf variant InsertPosition.spelling).isSome) = true ↔
        (object.get "position").isSome ∧ ∀ value ∈ object.get "position",
          (value.kindOf variant InsertPosition.spelling).isSome := by
    cases object.get "position" <;> simp
  cases kind <;>
    simp only [decode, required, fields, EditField.Reads, Option.isSome_bind, any_const,
      Option.bind_eq_bind, Option.isSome_some, Bool.and_true, Bool.and_eq_true, optional_isSome,
      text_isSome, position, List.forall_mem_cons, List.not_mem_nil, false_imp_iff, implies_true,
      and_true] <;>
    tauto

/-- The counts and the names of the fields are those that a deserializer and a schema agree on. -/
structure Agreed (object : Fields) : Prop where
  words : ∀ value ∈ object.get "expected_replacements", value.asU64.isSome
  named : ∀ value ∈ object.get "position", value.asStr.isSome

theorem field_of_mem {field : String × EditField} (mem : field ∈ kind.fields overwrites) :
    (field.2 = .replacements ↔ field.1 = "expected_replacements") ∧
      (field.2 = .replacements → kind = .replace) ∧
      (field.2 = .position ↔ field.1 = "position") ∧ field.2 ≠ .detail := by
  cases kind <;> simp only [fields, List.mem_cons, List.not_mem_nil, or_false] at mem <;>
    rcases mem with rfl | rfl | rfl | rfl | rfl | rfl <;> simp

theorem Agreed.plain (agreed : Agreed object) {field : String × EditField}
    (mem : field ∈ kind.fields overwrites) {value : Value} (found : object.get field.1 = some value) :
    field.2.Plain value := by
  obtain ⟨counts, -, places, detail⟩ := field_of_mem mem
  obtain ⟨name, field⟩ := field
  cases field with
  | replacements => exact agreed.words value (counts.mp rfl ▸ found)
  | position => exact agreed.named value (places.mp rfl ▸ found)
  | detail => exact absurd rfl detail
  | text | flag | texts => trivial

theorem accepts_kind {decimals : Decimals} {name : String} {value : Value} :
    (json [("type", .str "string"), ("enum", strings [name])]).accepts decimals value = true ↔
      value = .str name := by
  cases value <;> simp [json, Fields.ofList, Value.accepts, Fields.assertions, keywordHolds,
    typesHold, typeHolds, Value.str, strings, Value.list, Items.ofList, Items.toList, Value.elements]

theorem declared_schema : kind.schema.declared = "kind" :: (kind.fields false).map Prod.fst := by
  cases kind <;> rfl

theorem required_schema :
    (Contract.fromSchema kind.asStr kind.schema).required = "kind" :: kind.required := by
  cases kind <;> rfl

theorem integers_replace : ⟨"expected_replacements", some 1, none⟩ ∈
    (Contract.fromSchema (asStr .replace) (schema .replace)).integers :=
  List.mem_singleton_self _

theorem asWide_of_asU64 {n : Int} (word : (Value.number n).asU64.isSome) :
    (Value.number n).asWide = some n := by
  have range : 0 ≤ n ∧ n < 18446744073709551616 := by
    by_contra outside
    rw [Value.asU64, if_neg outside] at word
    cases word
  rw [Value.asWide, if_pos ⟨by omega, range.2⟩]

theorem accepts_branch {decimals : Decimals} :
    (Value.object kind.schema).accepts decimals (.object object) = true ↔
      object.get "kind" = some (.str kind.asStr) ∧
        (∀ field ∈ kind.fields false, ∀ value ∈ object.get field.1,
          field.2.schema.accepts decimals value = true) ∧
        (∀ field ∈ kind.required, (object.get field).isSome) ∧
        ∀ field ∈ object.keys, field ∈ "kind" :: (kind.fields false).map Prod.fst := by
  have names : (kind.properties false).map Prod.fst = (kind.fields false).map Prod.fst := by
    simp [properties, Function.comp_def]
  rw [schema, accepts_objectSchema, List.forall_mem_cons, List.forall_mem_cons, List.map_cons, names,
    properties, List.forall_mem_map]
  simp only [accepts_kind]
  constructor
  · rintro ⟨⟨tag, asked⟩, ⟨tagged, given⟩, known⟩
    obtain ⟨value, found⟩ := Option.isSome_iff_exists.mp tagged
    exact ⟨tag value found ▸ found, asked, given, known⟩
  · rintro ⟨tagged, asked, given, known⟩
    refine ⟨⟨fun value found => ?_, asked⟩, ⟨Option.isSome_of_eq_some tagged, given⟩, known⟩
    exact Option.some.inj (Eq.trans (Eq.symm found) tagged)

theorem get_of_known {key : String} {value : Value}
    (known : ∀ field ∈ object.keys, field ∈ "kind" :: (kind.fields overwrites).map Prod.fst)
    (found : object.get key = some value) (differ : key ≠ "kind") :
    ∃ field ∈ kind.fields overwrites, field.1 = key := by
  have mem : key ∈ object.keys := by
    by_contra missing
    rw [Fields.get_eq_none.mpr missing] at found
    cases found
  rcases List.mem_cons.mp (known key mem) with same | mem
  · exact absurd same differ
  · exact List.mem_map.mp mem

variable (variant) in
theorem accepts_schema (decimals : Decimals) :
    (Value.object kind.schema).accepts decimals (.object object) = true ∧
        (∀ value ∈ object.get "expected_replacements", value.asU64.isSome) ↔
      object.get "kind" = some (.str kind.asStr) ∧
        (Contract.fromSchema kind.asStr kind.schema).Conforms object ∧
        (kind.decode variant false object).isSome ∧ Agreed object := by
  constructor
  · rintro ⟨accepted, words⟩
    have named := Contract.known_of_accepts (by cases kind <;> rfl) kind.asStr accepted
    have conforms := Contract.conforms_of_accepts kind.asStr accepted named
    obtain ⟨tagged, asked, given, known⟩ := accepts_branch.mp accepted
    have plain {field : String × EditField} (mem : field ∈ kind.fields false) {value : Value}
        (found : object.get field.1 = some value) : field.2.Plain value := by
      refine accepts_plain (fun counts => ?_) (asked field mem value found)
      rw [(field_of_mem mem).1.mp counts] at found
      exact words value found
    refine ⟨tagged, conforms, decode_isSome.mpr ⟨given, fun field mem value found => ?_⟩, words,
      fun value found => ?_⟩
    · exact ((accepts_iff_reads (plain mem found)).mp (asked field mem value found)).1
    · obtain ⟨field, mem, same⟩ := get_of_known known found (by decide)
      have plain := plain mem (same ▸ found)
      rw [(field_of_mem mem).2.2.1.mpr same] at plain
      exact plain
  · rintro ⟨tagged, conforms, read, agreed⟩
    obtain ⟨given, reads⟩ := decode_isSome.mp read
    refine ⟨accepts_branch.mpr ⟨tagged, fun field mem value found => ?_, given, fun field mem => ?_⟩,
      agreed.words⟩
    · refine (accepts_iff_reads (agreed.plain mem found)).mpr
        ⟨reads field mem value found, fun counts n same => ?_⟩
      obtain ⟨count, replaces, -⟩ := field_of_mem mem
      obtain rfl := replaces counts
      subst same
      rw [count.mp counts] at found
      simpa [IntegerBounds.admits] using conforms.bounded _ integers_replace (.number n) found n
        (asWide_of_asU64 (agreed.words _ found))
    · have allowed := conforms.allowed field mem
      rwa [Contract.allowed_fromSchema, declared_schema] at allowed

theorem accepting_ofList {decimals : Decimals} (branches : List Value) (value : Value) :
    (Items.ofList branches).accepting decimals value =
      branches.countP (·.accepts decimals value) := by
  induction branches with
  | nil => rfl
  | cons branch rest ih => rw [Items.ofList, Items.accepting, ih, List.countP_cons, Nat.add_comm]

theorem accepts_changeSchema {decimals : Decimals} :
    (Value.object changeSchema).accepts decimals (.object object) = true ↔
      ∃ kind : ChangeKind, (Value.object kind.schema).accepts decimals (.object object) = true := by
  have branches : (Value.object changeSchema).accepts decimals (.object object) = true ↔
      spelling.all.countP (fun kind => (Value.object kind.schema).accepts decimals
        (.object object)) = 1 := by
    change (true && (decide (Items.accepting decimals (.ofList (spelling.all.map fun kind =>
      .object kind.schema)) (.object object) = 1) && true)) = true ↔ _
    rw [accepting_ofList, List.countP_map, Bool.true_and, Bool.and_true, decide_eq_true_eq]
    rfl
  rw [branches]
  constructor
  · intro one
    obtain ⟨kind, -, accepted⟩ := List.countP_pos_iff.mp (one ▸ Nat.one_pos)
    exact ⟨kind, accepted⟩
  · rintro ⟨kind, accepted⟩
    have only : ∀ other ∈ spelling.all, (Value.object other.schema).accepts decimals
        (.object object) = true ↔ (other == kind) = true := by
      intro other _
      rw [beq_iff_eq]
      refine ⟨fun also => ?_, fun same => same ▸ accepted⟩
      have same := (accepts_branch.mp also).1.symm.trans (accepts_branch.mp accepted).1
      exact spelling.name_injective other kind (Value.string.inj (Option.some.inj same))
    rw [List.countP_congr only]
    cases kind <;> rfl

end

end ChangeKind

namespace Fields

theorem get_of_mem {key : String} {value : Value} {fields : Fields} (distinct : fields.keys.Nodup)
    (mem : (key, value) ∈ fields.toList) : fields.get key = some value := by
  induction fields using Fields.get.induct key with
  | case1 => cases mem
  | case2 old rest =>
    rw [keys, toList, List.map_cons, List.nodup_cons] at distinct
    rcases List.mem_cons.mp mem with same | later
    · cases same
      rw [get, if_pos rfl]
    · exact absurd (List.mem_map_of_mem later) distinct.1
  | case3 name old rest differ ih =>
    rw [keys, toList, List.map_cons, List.nodup_cons] at distinct
    rcases List.mem_cons.mp mem with same | later
    · cases same
      exact absurd rfl differ
    · rw [get, if_neg differ]
      exact ih distinct.2 later

theorem get_of_present {key : String} {value : Value} {fields : Fields}
    (distinct : fields.keys.Nodup) (found : fields.present.get key = some value) :
    fields.get key = some value :=
  get_of_mem distinct (mem_of_mem_present (mem_toList_of_get found))

end Fields

namespace Change

variable {serde : Deserializer} {change : Change}

theorem validate_eq_ok {u : Unit} :
    change.validate = .ok u ↔ ∀ field ∈ change.notBlank, NotBlank field.2 := by
  unfold validate
  cases found : change.notBlank.find? fun field => trim field.2 = [] with
  | none => simpa [NotBlank] using found
  | some field =>
    obtain ⟨blank, mem⟩ : trim field.2 = [] ∧ field ∈ change.notBlank :=
      ⟨by simpa using List.find?_some found, List.mem_of_find?_eq_some found⟩
    refine ⟨fun failed => ?_, fun all => absurd blank (all field mem)⟩
    cases failed

theorem changeContracts_eq : changeContracts =
    ChangeKind.spelling.all.map fun kind => .fromSchema kind.asStr kind.schema := rfl

theorem find_contract {text : Text} {contract : Contract} :
    (changeContracts.find? fun contract => contract.name.toList = text) = some contract ↔
      ∃ kind : ChangeKind, kind.asStr.toList = text ∧
        contract = .fromSchema kind.asStr kind.schema := by
  have found : (changeContracts.find? fun contract => contract.name.toList = text) =
      (ChangeKind.spelling.parse text).map fun kind => .fromSchema kind.asStr kind.schema := by
    rw [changeContracts_eq, List.find?_map]
    rfl
  rw [found, Option.map_eq_some_iff]
  simp only [Spelling.parse_eq_some]
  exact exists_congr fun kind => and_congr_right fun _ => eq_comm

theorem decode_eq_ok {object : Fields} : decode serde object = .ok change ↔
    ∃ kind : ChangeKind, object.get "kind" = some (.str kind.asStr) ∧
      kind.decode serde.buffered false object = some change := by
  have found : decode serde object = .ok change ↔ ((object.text "kind").bind
      ChangeKind.spelling.parse |>.bind fun kind => kind.decode serde.buffered false object) =
        some change := by
    unfold decode
    split
    · rename_i read
      rw [read, Except.ok.injEq, Option.some.injEq]
    · rename_i missing
      rw [missing]
      exact ⟨nofun, nofun⟩
  rw [found, Option.bind_eq_some_iff]
  simp only [Option.bind_eq_some_iff, Spelling.parse_eq_some, Fields.text]
  constructor
  · rintro ⟨kind, ⟨text, ⟨value, tagged, isText⟩, named⟩, read⟩
    obtain ⟨text, rfl⟩ := asStr_isSome.mp (Option.isSome_of_eq_some isText)
    cases isText
    subst named
    exact ⟨kind, tagged, read⟩
  · rintro ⟨kind, tagged, read⟩
    exact ⟨kind, ⟨_, ⟨_, tagged, rfl⟩, rfl⟩, read⟩

theorem parse_eq_ok {value : Value} : parse serde value = .ok change ↔
    ∃ (object : Fields) (kind : ChangeKind), value = .object object ∧
      object.get "kind" = some (.str kind.asStr) ∧
      (Contract.fromSchema kind.asStr kind.schema).Conforms object.present ∧
      kind.decode serde.buffered false object.present = some change ∧
      ∀ field ∈ change.notBlank, NotBlank field.2 := by
  have tagged_present {object : Fields} {kind : ChangeKind}
      (tagged : object.get "kind" = some (.str kind.asStr)) :
      object.present.get "kind" = some (.str kind.asStr) := Fields.get_present tagged nofun
  unfold parse
  simp only [bind_eq_ok, okOr_eq_ok, Contract.parse_eq_ok, find_contract, decode_eq_ok,
    validate_eq_ok, Fields.nonBlank_eq_some]
  constructor
  · rintro ⟨object, isObject, kind, ⟨tagged, -⟩, contract, ⟨kind', rfl, rfl⟩, change', ⟨object',
      rfl, conforms, other, tagged', read⟩, _, spelled, same⟩
    cases isObject
    cases same
    have same : kind' = other := by
      have same := (tagged_present tagged).symm.trans tagged'
      exact ChangeKind.spelling.name_injective _ _ (Value.string.inj (Option.some.inj same))
    subst same
    exact ⟨object, kind', rfl, tagged, conforms, read, spelled⟩
  · rintro ⟨object, kind, rfl, tagged, conforms, read, spelled⟩
    have some : trim kind.asStr.toList ≠ [] := by cases kind <;> decide
    exact ⟨object, rfl, _, ⟨tagged, some⟩, _, ⟨kind, rfl, rfl⟩, change,
      ⟨object, rfl, conforms, kind, tagged_present tagged, read⟩, (), spelled, rfl⟩

theorem nonBlank_isSome {object : Fields} {key : String} {text : Text}
    (read : object.text key = some text) : (object.nonBlank key).isSome ↔ NotBlank text := by
  have same : object.nonBlank key = (object.text key).filter fun text => trim text ≠ [] := rfl
  rw [same, read, Option.filter_some]
  by_cases blank : trim text = [] <;> simp [blank, NotBlank]

theorem path_of_decode {variant : Value → Option Text} {overwrites : Bool} {kind : ChangeKind}
    {object : Fields} (read : kind.decode variant overwrites object = some change) :
    object.text "path" = some change.path ∧ change.kind = kind := by
  obtain ⟨path, readPath, read⟩ := Option.bind_eq_some_iff.mp read
  rw [readPath]
  cases kind with
  | create =>
    obtain ⟨content, -, read⟩ := Option.bind_eq_some_iff.mp read
    obtain ⟨overwrite, -, read⟩ := Option.bind_eq_some_iff.mp read
    obtain ⟨expectedHash, -, read⟩ := Option.bind_eq_some_iff.mp read
    cases read
    exact ⟨rfl, rfl⟩
  | replace =>
    obtain ⟨oldText, -, read⟩ := Option.bind_eq_some_iff.mp read
    obtain ⟨newText, -, read⟩ := Option.bind_eq_some_iff.mp read
    obtain ⟨count, -, read⟩ := Option.bind_eq_some_iff.mp read
    obtain ⟨expectedHash, -, read⟩ := Option.bind_eq_some_iff.mp read
    obtain ⟨handle, -, read⟩ := Option.bind_eq_some_iff.mp read
    cases read
    exact ⟨rfl, rfl⟩
  | replaceRange =>
    obtain ⟨handle, -, read⟩ := Option.bind_eq_some_iff.mp read
    obtain ⟨newText, -, read⟩ := Option.bind_eq_some_iff.mp read
    cases read
    exact ⟨rfl, rfl⟩
  | insert =>
    obtain ⟨content, -, read⟩ := Option.bind_eq_some_iff.mp read
    obtain ⟨anchorSymbol, -, read⟩ := Option.bind_eq_some_iff.mp read
    obtain ⟨position, -, read⟩ := Option.bind_eq_some_iff.mp read
    obtain ⟨expectedHash, -, read⟩ := Option.bind_eq_some_iff.mp read
    cases read
    exact ⟨rfl, rfl⟩
  | delete =>
    obtain ⟨expectedHash, -, read⟩ := Option.bind_eq_some_iff.mp read
    cases read
    exact ⟨rfl, rfl⟩
  | rename =>
    obtain ⟨target, -, read⟩ := Option.bind_eq_some_iff.mp read
    obtain ⟨expectedHash, -, read⟩ := Option.bind_eq_some_iff.mp read
    cases read
    exact ⟨rfl, rfl⟩

theorem handle_of_decode {variant : Value → Option Text} {overwrites : Bool} {path handle newText : Text}
    {object : Fields} (read : ChangeKind.replaceRange.decode variant overwrites object =
      some (.replaceRange path handle newText)) : object.text "handle" = some handle := by
  obtain ⟨_, -, read⟩ := Option.bind_eq_some_iff.mp read
  obtain ⟨_, readHandle, read⟩ := Option.bind_eq_some_iff.mp read
  obtain ⟨_, -, read⟩ := Option.bind_eq_some_iff.mp read
  cases read
  exact readHandle

theorem notBlank_of_decode {variant : Value → Option Text} {overwrites : Bool} {kind : ChangeKind}
    {object : Fields} (read : kind.decode variant overwrites object = some change) :
    (∀ field ∈ change.notBlank, NotBlank field.2) ↔ (object.nonBlank "path").isSome ∧
      (kind = .replaceRange → (object.nonBlank "handle").isSome) := by
  obtain ⟨readPath, rfl⟩ := path_of_decode read
  rw [nonBlank_isSome readPath]
  cases change with
  | replaceRange path handle newText =>
    simp [notBlank, Change.kind, nonBlank_isSome (handle_of_decode read)]
  | create | replace | insert | delete | rename => simp [notBlank, Change.kind]

end Change

theorem agreed_of_conforms {variant : Value → Option Text} {kind : ChangeKind} {object : Fields}
    (conforms : (Contract.fromSchema kind.asStr kind.schema).Conforms object)
    (read : (kind.decode variant false object).isSome)
    (named : ∀ value ∈ object.get "position", value.asStr.isSome) : ChangeKind.Agreed object := by
  refine ⟨fun value found => ?_, named⟩
  have known : ∀ field ∈ object.keys, field ∈ "kind" :: (kind.fields false).map Prod.fst := by
    intro field mem
    have allowed := conforms.allowed field mem
    rwa [Contract.allowed_fromSchema, ChangeKind.declared_schema] at allowed
  obtain ⟨field, mem, same⟩ := ChangeKind.get_of_known known found (by decide)
  have reads := (ChangeKind.decode_isSome.mp read).2 field mem value (same ▸ found)
  rw [(ChangeKind.field_of_mem mem).1.mpr same] at reads
  exact reads

/-- A change whose position is given by name is accepted just where the published schema accepts
it, its count of replacements is a word and neither its path nor the handle of a range is
blank. -/
theorem change_accepted_iff (serde : Deserializer) (decimals : Decimals) {object : Fields}
    (distinct : object.keys.Nodup) :
    (Change.parse serde (.object object)).isOk ∧
        (∀ value ∈ object.present.get "position", value.asStr.isSome) ↔
      (Value.object changeSchema).accepts decimals (.object object.present) = true ∧
        (∀ value ∈ object.present.get "expected_replacements", value.asU64.isSome) ∧
        (object.present.nonBlank "path").isSome ∧
        (object.present.get "kind" = some (.str "replace_range") →
          (object.present.nonBlank "handle").isSome) := by
  rw [isOk_iff_exists, ChangeKind.accepts_changeSchema]
  simp only [Change.parse_eq_ok]
  constructor
  · rintro ⟨⟨change, _, kind, same, tagged, conforms, read, spelled⟩, named⟩
    cases same
    have tagged := Fields.get_present tagged (nofun : Value.str kind.asStr ≠ .null)
    have isRead := Option.isSome_of_eq_some read
    obtain ⟨accepted, words⟩ := (ChangeKind.accepts_schema serde.buffered decimals).mpr
      ⟨tagged, conforms, isRead, agreed_of_conforms conforms isRead named⟩
    obtain ⟨path, handle⟩ := (Change.notBlank_of_decode read).mp spelled
    refine ⟨⟨kind, accepted⟩, words, path, fun ranged => handle ?_⟩
    have same := Option.some.inj (tagged.symm.trans ranged)
    exact ChangeKind.spelling.name_injective kind .replaceRange (Value.string.inj same)
  · rintro ⟨⟨kind, accepted⟩, words, path, handle⟩
    obtain ⟨tagged, conforms, isRead, agreed⟩ :=
      (ChangeKind.accepts_schema serde.buffered decimals).mp ⟨accepted, words⟩
    obtain ⟨change, read⟩ := Option.isSome_iff_exists.mp isRead
    refine ⟨⟨change, object, kind, rfl, Fields.get_of_present distinct tagged, conforms, read, ?_⟩,
      agreed.named⟩
    refine (Change.notBlank_of_decode read).mpr ⟨path, ?_⟩
    rintro rfl
    exact handle tagged

namespace Sample

def replacementItem : Fields := .ofList [("kind", .str "replace"), ("path", .str "a.rs"),
  ("old_text", .str "old"), ("new_text", .str "new"), ("handle", .null)]

theorem replacementItem_accepted :
    (Change.parse ⟨fun _ => ⟨".", "invalid"⟩, fun _ => none, fun _ => none⟩
      (.object replacementItem)).isOk := by
  refine ((change_accepted_iff _ ⟨fun _ => false, fun _ _ => true, fun _ _ => true⟩
    (by decide : replacementItem.keys.Nodup)).mpr ⟨?_, nofun, ?_, nofun⟩).1
  · decide
  · decide

end Sample

end CodeWeave
