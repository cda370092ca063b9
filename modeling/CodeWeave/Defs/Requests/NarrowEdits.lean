import CodeWeave.Defs.Requests.RenderedChanges

namespace CodeWeave

namespace Fields

theorem get_ofList_append (first second : List (String × Value)) (key : String) :
    (ofList (first ++ second)).get key = ((ofList first).get key).or ((ofList second).get key) := by
  induction first with
  | nil => rfl
  | cons field rest ih =>
    obtain ⟨name, value⟩ := field
    rw [List.cons_append, get_ofList_cons, get_ofList_cons, ih]
    split <;> rfl

theorem get_ofList_filter {keep : String → Bool} (fields : List (String × Value)) (key : String) :
    (ofList (fields.filter fun field => keep field.1)).get key =
      if keep key then (ofList fields).get key else none := by
  induction fields with
  | nil => simp [ofList, get]
  | cons field rest ih =>
    obtain ⟨name, value⟩ := field
    rw [List.filter_cons, get_ofList_cons]
    by_cases same : name = key
    · subst same
      cases kept : keep name <;> simp [kept, ih, get_ofList_cons]
    · rw [if_neg same, ← ih]
      cases kept : keep name <;> simp [same, get_ofList_cons]

end Fields

section

variable (overwrites : Bool) (kind : ChangeKind) (arguments : Fields)

def ofChange (field : String) : Bool := field ≠ "validate" && field ≠ "response_detail"

def asChange : Fields :=
  .ofList ([("kind", .str kind.asStr)] ++ (arguments.toList.filter fun field => ofChange field.1) ++
    if kind = .create ∧ arguments.get "overwrite" = none then [("overwrite", .bool overwrites)]
    else [])

/-- The arguments of the transaction that makes the change of a tool's arguments. -/
def asTransaction : Fields :=
  .given [("changes", some (.list [.object (asChange overwrites kind arguments)])),
    ("validate", arguments.get "validate"), ("response_detail", arguments.get "response_detail")]

end

section

variable {overwrites : Bool} {kind : ChangeKind} {arguments : Fields}

theorem get_asChange {key : String} (tag : key ≠ "kind") (mine : ofChange key = true) :
    (asChange overwrites kind arguments).get key = (arguments.get key).or
      (if kind = .create ∧ key = "overwrite" then some (.bool overwrites) else none) := by
  have tagged : (Fields.ofList [("kind", .str kind.asStr)]).get key = none := if_neg tag.symm
  rw [asChange, Fields.get_ofList_append, Fields.get_ofList_append, Fields.get_ofList_filter, mine,
    Fields.ofList_toList, if_pos rfl, tagged, Option.none_or]
  cases found : arguments.get key with
  | some value => rfl
  | none =>
    rw [Option.none_or, Option.none_or]
    by_cases flag : key = "overwrite"
    · subst flag
      by_cases creates : kind = .create <;> simp [found, creates, Fields.ofList, Fields.get]
    · have other : ¬(kind = .create ∧ key = "overwrite") := fun both => flag both.2
      rw [if_neg other]
      split
      · exact if_neg (Ne.symm flag)
      · rfl

theorem get_asChange_of_ne {key : String} (tag : key ≠ "kind") (mine : ofChange key = true)
    (flag : key ≠ "overwrite") :
    (asChange overwrites kind arguments).get key = arguments.get key := by
  rw [get_asChange tag mine, if_neg fun both => flag both.2, Option.or_none]

theorem text_asChange {key : String} (tag : key ≠ "kind") (mine : ofChange key = true)
    (flag : key ≠ "overwrite") :
    (asChange overwrites kind arguments).text key = arguments.text key := by
  rw [Fields.text, get_asChange_of_ne tag mine flag, Fields.text]

theorem optional_asChange {A : Type} {read : Value → Option A} {key : String} (tag : key ≠ "kind")
    (mine : ofChange key = true) (flag : key ≠ "overwrite") :
    (asChange overwrites kind arguments).optional read key = arguments.optional read key := by
  rw [Fields.optional, get_asChange_of_ne tag mine flag, Fields.optional]

theorem overwrite_asChange {A : Type} (next : Bool → Option A) :
    (((asChange overwrites .create arguments).optional Value.asBool "overwrite").bind fun said =>
      next (said.getD false)) =
    ((arguments.optional Value.asBool "overwrite").bind fun said => next (said.getD overwrites)) := by
  rw [Fields.optional, Fields.optional, get_asChange (by decide) (by decide)]
  cases arguments.get "overwrite" with
  | none => rfl
  | some value => cases value <;> rfl

theorem decode_asChange {variant buffered : Value → Option Text}
    (named : ∀ value ∈ arguments.get "position", value.asStr.isSome) :
    kind.decode buffered false (asChange overwrites kind arguments) =
      kind.decode variant overwrites arguments := by
  have position : (arguments.get "position").bind (Value.kindOf buffered InsertPosition.spelling) =
      (arguments.get "position").bind (Value.kindOf variant InsertPosition.spelling) := by
    cases found : arguments.get "position" with
    | none => rfl
    | some value =>
      obtain ⟨text, rfl⟩ := asStr_isSome.mp (named value found)
      rfl
  cases kind with
  | create =>
    simp (disch := decide) only [ChangeKind.decode, Option.bind_eq_bind, text_asChange,
      optional_asChange]
    congr 1
    funext path
    congr 1
    funext content
    exact overwrite_asChange fun overwrite =>
      (arguments.optional Value.asStr "expected_hash").bind fun expectedHash =>
        some (Change.create path content overwrite expectedHash)
  | insert =>
    simp (disch := decide) only [ChangeKind.decode, text_asChange, optional_asChange,
      get_asChange_of_ne, position]
  | replace | replaceRange | delete | rename =>
    simp (disch := decide) only [ChangeKind.decode, text_asChange, optional_asChange]

theorem required_ofChange {field : String} (mem : field ∈ kind.required) :
    field ≠ "kind" ∧ ofChange field = true ∧ field ≠ "overwrite" := by
  revert field
  cases kind <;> decide

theorem declared_narrow : (narrowSchema overwrites kind).declared =
    (kind.fields false).map Prod.fst ++ ["validate", "response_detail"] := by
  cases kind <;> rfl

theorem mem_keys_asChange {field : String} :
    field ∈ (asChange overwrites kind arguments).keys ↔ field = "kind" ∨
      (field ∈ arguments.keys ∧ ofChange field = true ∨
        (kind = .create ∧ arguments.get "overwrite" = none) ∧ field = "overwrite") := by
  have keys : (asChange overwrites kind arguments).keys = "kind" ::
      ((arguments.toList.filter fun field => ofChange field.1).map Prod.fst ++
        if kind = .create ∧ arguments.get "overwrite" = none then ["overwrite"] else []) := by
    rw [asChange, Fields.keys, Fields.toList_ofList]
    split <;> simp
  rw [keys, List.mem_cons, List.mem_append, Fields.keys]
  refine or_congr_right (or_congr ?_ ?_)
  · simp only [List.mem_map, List.mem_filter]
    constructor
    · rintro ⟨member, ⟨mem, mine⟩, rfl⟩
      exact ⟨⟨member, mem, rfl⟩, mine⟩
    · rintro ⟨⟨member, mem, rfl⟩, mine⟩
      exact ⟨member, ⟨mem, mine⟩, rfl⟩
  · split
    · rename_i creates
      simp [creates]
    · rename_i keeps
      simp [keeps]

theorem integers_narrow {name : String} :
    (Contract.fromSchema name (narrowSchema overwrites kind)).integers =
      (Contract.fromSchema kind.asStr kind.schema).integers := by
  cases kind <;> rfl

theorem required_narrow {name : String} :
    (Contract.fromSchema name (narrowSchema overwrites kind)).required = kind.required := by
  cases kind <;> rfl

theorem minLengths_narrow {name : String} :
    (Contract.fromSchema name (narrowSchema overwrites kind)).minLengths = [] := by
  cases kind <;> rfl

theorem conforms_asChange {name : String} (untagged : "kind" ∉ arguments.keys) :
    (Contract.fromSchema name (narrowSchema overwrites kind)).Conforms arguments ↔
      (Contract.fromSchema kind.asStr kind.schema).Conforms (asChange overwrites kind arguments) := by
  have same {field : String} (mem : field ∈ kind.required) :
      (asChange overwrites kind arguments).get field = arguments.get field := by
    obtain ⟨tag, mine, flag⟩ := required_ofChange mem
    exact get_asChange_of_ne tag mine flag
  have counted {bounds : IntegerBounds}
      (mem : bounds ∈ (Contract.fromSchema kind.asStr kind.schema).integers) :
      (asChange overwrites kind arguments).get bounds.field = arguments.get bounds.field := by
    rw [Change.integers_schema] at mem
    split at mem
    · obtain rfl := List.mem_singleton.mp mem
      exact get_asChange_of_ne (by decide) (by decide) (by decide)
    · cases mem
  have tagged : (asChange overwrites kind arguments).get "kind" = some (.str kind.asStr) := rfl
  have overwrite : kind = .create → "overwrite" ∈ (kind.fields false).map Prod.fst := by
    rintro rfl
    decide
  constructor
  · rintro ⟨allowed, required, bounded, -⟩
    rw [Contract.allowed_fromSchema, declared_narrow] at allowed
    rw [required_narrow] at required
    rw [integers_narrow] at bounded
    refine ⟨fun field mem => ?_, fun field mem => ?_, fun bounds mem => ?_, ?_⟩
    · rw [Contract.allowed_fromSchema, ChangeKind.declared_schema, List.mem_cons]
      rcases mem_keys_asChange.mp mem with rfl | ⟨mem, mine⟩ | ⟨⟨creates, -⟩, rfl⟩
      · exact .inl rfl
      · refine .inr ((List.mem_append.mp (allowed field mem)).resolve_right fun other => ?_)
        revert mine
        rcases List.mem_cons.mp other with rfl | other
        · decide
        · obtain rfl := List.mem_singleton.mp other
          decide
      · exact .inr (overwrite creates)
    · rw [ChangeKind.required_schema] at mem
      rcases List.mem_cons.mp mem with rfl | mem
      · rw [tagged, Option.isSome_some]
      · rw [same mem]
        exact required field mem
    · rw [counted mem]
      exact bounded bounds mem
    · rw [Change.minLengths_schema]
      nofun
  · rintro ⟨allowed, required, bounded, -⟩
    rw [Contract.allowed_fromSchema, ChangeKind.declared_schema] at allowed
    rw [ChangeKind.required_schema] at required
    refine ⟨fun field mem => ?_, fun field mem => ?_, fun bounds mem => ?_, ?_⟩
    · rw [Contract.allowed_fromSchema, declared_narrow, List.mem_append]
      by_cases mine : ofChange field = true
      · have among := allowed field (mem_keys_asChange.mpr (.inr (.inl ⟨mem, mine⟩)))
        refine .inl ((List.mem_cons.mp among).resolve_left ?_)
        rintro rfl
        exact untagged mem
      · refine .inr ?_
        simp only [ofChange, Bool.and_eq_true, decide_eq_true_eq, not_and_or, not_not] at mine
        simpa using mine
    · rw [required_narrow] at mem
      rw [← same mem]
      exact required field (List.mem_cons_of_mem _ mem)
    · rw [integers_narrow] at mem
      rw [← counted mem]
      exact bounded bounds mem
    · rw [minLengths_narrow]
      nofun

def EditCall.OfChange (serde : Deserializer) (change : Change) (arguments : Fields)
    (call : EditCall) : Prop :=
  (∀ field ∈ change.notBlank, NotBlank field.2) ∧ ∃ validate responseDetail,
    arguments.optional Value.asStrings "validate" = some validate ∧
      arguments.detail serde = some responseDetail ∧
      call = { changes := [change], snapshotId := none, preview := false,
               validate := validate.getD [], responseDetail }

theorem found_eq_ok {A : Type} {serde : Deserializer} {fields : Fields} {read : Option A} {a : A} :
    found serde fields read = .ok a ↔ read = some a := by
  cases read with
  | none => exact ⟨nofun, nofun⟩
  | some b => exact ⟨fun same => by cases same; rfl, fun same => by cases same; rfl⟩

theorem narrowEdit_eq_ok {serde : Deserializer} {name : String} {call : EditCall} :
    narrowEdit serde name overwrites kind (.object arguments) = .ok call ↔
      (Contract.fromSchema name (narrowSchema overwrites kind)).Conforms arguments.present ∧
        ∃ change, kind.decode serde.variant overwrites arguments.present = some change ∧
          call.OfChange serde change arguments.present := by
  simp only [narrowEdit, bind_eq_ok, Contract.parse_eq_ok, found_eq_ok, EditCall.single,
    Change.validate_eq_ok, Option.bind_eq_bind, Option.bind_eq_some_iff]
  constructor
  · rintro ⟨_, ⟨_, same, conforms, change, read, validate, validated, detail, detailed, built⟩,
      _, spelled, called⟩
    cases same
    cases built
    cases called
    exact ⟨conforms, change, read, spelled, validate, detail, validated, detailed, rfl⟩
  · rintro ⟨conforms, change, read, spelled, validate, detail, validated, detailed, rfl⟩
    exact ⟨_, ⟨arguments, rfl, conforms, change, read, validate, validated, detail, detailed, rfl⟩,
      (), spelled, rfl⟩

theorem present_of_given {fields : Fields} (some : ∀ field ∈ fields.toList, field.2 ≠ .null) :
    fields.present = fields := by
  rw [← Fields.ofList_toList fields.present, Fields.present_eq_self some, Fields.ofList_toList]

theorem present_asChange (given : ∀ field ∈ arguments.toList, field.2 ≠ .null) :
    (asChange overwrites kind arguments).present = asChange overwrites kind arguments := by
  refine present_of_given fun field mem => ?_
  rw [asChange, Fields.toList_ofList, List.mem_append, List.mem_append] at mem
  rcases mem with (tag | mine) | flag
  · obtain rfl := List.mem_singleton.mp tag
    nofun
  · exact given field (List.mem_of_mem_filter mine)
  · split at flag
    · obtain rfl := List.mem_singleton.mp flag
      nofun
    · cases flag

theorem present_asTransaction (given : ∀ field ∈ arguments.toList, field.2 ≠ .null) :
    (asTransaction overwrites kind arguments).present =
      asTransaction overwrites kind arguments := by
  refine present_of_given fun field mem => ?_
  have mem := Fields.mem_given.mp mem
  simp only [List.mem_cons, List.not_mem_nil, or_false] at mem
  rcases mem with same | same | same
  · rw [Option.some.inj (Prod.mk.inj same).2]
    nofun
  · exact given ("validate", field.2) (Fields.mem_toList_of_get (Prod.mk.inj same).2.symm)
  · exact given ("response_detail", field.2) (Fields.mem_toList_of_get (Prod.mk.inj same).2.symm)

theorem conforms_asTransaction : (Contract.fromSchema "code_transaction" transactionSchema).Conforms
    (asTransaction overwrites kind arguments) := by
  refine ⟨fun field mem => ?_, fun field mem => ?_, nofun, nofun⟩
  · obtain ⟨member, among, rfl⟩ := List.mem_map.mp mem
    have among := Fields.mem_given.mp among
    simp only [List.mem_cons, List.not_mem_nil, or_false] at among
    rcases among with same | same | same <;> rw [(Prod.mk.inj same).1] <;> decide
  · obtain rfl := List.mem_singleton.mp mem
    rfl

theorem get_asTransaction {key : String} (other : key ≠ "changes") (mine : ofChange key = false) :
    (asTransaction overwrites kind arguments).get key = arguments.get key := by
  have either : key = "validate" ∨ key = "response_detail" := by
    by_contra neither
    simp only [not_or] at neither
    simp [ofChange, neither.1, neither.2] at mine
  rcases either with rfl | rfl <;>
    exact Fields.get_given_of_mem (by simp) (by simp)

theorem detail_asTransaction {serde : Deserializer} :
    (asTransaction overwrites kind arguments).detail serde = arguments.detail serde := by
  rw [Fields.detail, Fields.optional, get_asTransaction (by decide) (by decide), Fields.detail,
    Fields.optional]

theorem validate_asTransaction :
    (asTransaction overwrites kind arguments).optional Value.asStrings "validate" =
      arguments.optional Value.asStrings "validate" := by
  rw [Fields.optional, get_asTransaction (by decide) (by decide), Fields.optional]

theorem snapshot_asTransaction :
    (asTransaction overwrites kind arguments).optional Value.asStr "snapshot_id" = some none := by
  simp [asTransaction, Fields.optional, Fields.get_given]

theorem toOption_congr {A : Type} {first second : AppResult A}
    (same : ∀ a, first = .ok a ↔ second = .ok a) : first.toOption = second.toOption := by
  cases first with
  | ok a => rw [(same a).mp rfl]
  | error error =>
    cases second with
    | ok a => cases (same a).mpr rfl
    | error other => rfl

theorem mapM_singleton {A B : Type} {f : A → AppResult B} {a : A} {results : List B} :
    [a].mapM f = .ok results ↔ ∃ b, f a = .ok b ∧ results = [b] := by
  rw [List.mapM_cons, List.mapM_nil, bind_eq_ok]
  exact exists_congr fun b => and_congr_right fun _ =>
    ⟨fun same => by cases same; rfl, fun same => by cases same; rfl⟩

theorem codeTransaction_eq_ok {serde : Deserializer} {call : EditCall}
    (given : ∀ field ∈ arguments.toList, field.2 ≠ .null) :
    codeTransaction serde (.object (asTransaction overwrites kind arguments)) = .ok call ↔
      (Contract.fromSchema kind.asStr kind.schema).Conforms (asChange overwrites kind arguments) ∧
        ∃ change, kind.decode serde.buffered false (asChange overwrites kind arguments) =
          some change ∧ call.OfChange serde change arguments := by
  have changes : ((asTransaction overwrites kind arguments).get "changes").bind Value.asArray =
      some [.object (asChange overwrites kind arguments)] := rfl
  have item {change : Change} :
      Change.parse serde (.object (asChange overwrites kind arguments)) = .ok change ↔
        (Contract.fromSchema kind.asStr kind.schema).Conforms
            (asChange overwrites kind arguments) ∧
          kind.decode serde.buffered false (asChange overwrites kind arguments) = some change ∧
          ∀ field ∈ change.notBlank, NotBlank field.2 := by
    rw [Change.parse_eq_ok]
    constructor
    · rintro ⟨object, kind', same, tagged, conforms, read, spelled⟩
      cases same
      obtain rfl : kind = kind' :=
        ChangeKind.spelling.name_injective _ _ (Value.string.inj (Option.some.inj tagged))
      rw [present_asChange given] at conforms read
      exact ⟨conforms, read, spelled⟩
    · rintro ⟨conforms, read, spelled⟩
      refine ⟨_, kind, rfl, rfl, ?_⟩
      rw [present_asChange given]
      exact ⟨conforms, read, spelled⟩
  simp only [codeTransaction, bind_eq_ok, Contract.parse_eq_ok, found_eq_ok, EditCall.batch,
    Option.bind_eq_bind, Option.bind_eq_some_iff]
  constructor
  · rintro ⟨_, ⟨object, same, -, items, listed, snapshot, unasked, validate, validated, detail,
      detailed, built⟩, parsed, run, called⟩
    cases same
    cases built
    cases called
    rw [present_asTransaction given] at listed unasked validated detailed
    obtain rfl := Option.some.inj (changes.symm.trans (Option.bind_eq_some_iff.mpr listed))
    obtain rfl := Option.some.inj (snapshot_asTransaction.symm.trans unasked)
    obtain ⟨change, parsed, rfl⟩ := mapM_singleton.mp run
    obtain ⟨conforms, read, spelled⟩ := item.mp parsed
    rw [validate_asTransaction] at validated
    rw [detail_asTransaction] at detailed
    exact ⟨conforms, change, read, spelled, validate, detail, validated, detailed, rfl⟩
  · rintro ⟨conforms, change, read, spelled, validate, detail, validated, detailed, rfl⟩
    refine ⟨_, ⟨_, rfl, ?_, _, Option.bind_eq_some_iff.mp ?_, none, ?_, validate, ?_, detail, ?_, rfl⟩,
      [change], mapM_singleton.mpr ⟨change, item.mpr ⟨conforms, read, spelled⟩, rfl⟩, rfl⟩
    all_goals rw [present_asTransaction given]
    · exact conforms_asTransaction
    · exact changes
    · exact snapshot_asTransaction
    · rw [validate_asTransaction, validated]
    · rw [detail_asTransaction, detailed]

/-- A tool that makes one change accepts its arguments just where the transaction of that change
is accepted, and both compile to the same edit. -/
theorem narrow_eq_transaction (serde : Deserializer) (name : String) (overwrites : Bool)
    (kind : ChangeKind) {arguments : Fields} (untagged : "kind" ∉ arguments.keys)
    (named : ∀ value ∈ arguments.present.get "position", value.asStr.isSome) :
    (narrowEdit serde name overwrites kind (.object arguments)).toOption =
      (codeTransaction serde
        (.object (asTransaction overwrites kind arguments.present))).toOption := by
  have given : ∀ field ∈ arguments.present.toList, field.2 ≠ .null :=
    fun _ mem => Fields.present_ne_null mem
  have untagged : "kind" ∉ arguments.present.keys := by
    intro mem
    obtain ⟨field, among, same⟩ := List.mem_map.mp mem
    exact untagged (List.mem_map.mpr ⟨field, Fields.mem_of_mem_present among, same⟩)
  have agree (call : EditCall) : narrowEdit serde name overwrites kind (.object arguments) = .ok call ↔
      codeTransaction serde (.object (asTransaction overwrites kind arguments.present)) = .ok call := by
    rw [narrowEdit_eq_ok, codeTransaction_eq_ok given, conforms_asChange untagged,
      decode_asChange named]
  exact toOption_congr agree

end

namespace Sample

def plainSerde : Deserializer := ⟨fun _ => ⟨".", "invalid"⟩, fun _ => none, fun _ => none⟩

def writeArguments : Fields := .ofList [("path", .str "a.txt"), ("content", .str "x"), ("validate", .null)]

example : (codeWrite plainSerde (.object writeArguments)).toOption.map (·.changes) =
    some [.create "a.txt".toList "x".toList true none] := by
  decide

theorem write_eq_transaction : (codeWrite plainSerde (.object writeArguments)).toOption =
    (codeTransaction plainSerde
      (.object (asTransaction true .create writeArguments.present))).toOption :=
  narrow_eq_transaction plainSerde "code_write" true .create (by decide) (by decide)

end Sample

end CodeWeave
