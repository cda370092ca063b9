import CodeWeave.Defs.Requests.Operations

namespace CodeWeave

theorem forM_eq_ok {A : Type} {check : A → AppResult Unit} {items : List A} {u : Unit} :
    items.forM check = .ok u ↔ ∀ item ∈ items, check item = .ok () := by
  induction items with
  | nil => exact ⟨fun _ _ mem => absurd mem List.not_mem_nil, fun _ => rfl⟩
  | cons item rest ih =>
    rw [List.forM_eq_forM] at ih ⊢
    rw [List.forM_cons, bind_eq_ok, List.forall_mem_cons, ← ih]
    exact ⟨fun ⟨_, first, later⟩ => ⟨first, later⟩, fun ⟨first, later⟩ => ⟨(), first, later⟩⟩

namespace Fields

variable {fields : Fields} {key : String}

@[simp] theorem ofList_toList (fields : Fields) : ofList fields.toList = fields := by
  induction fields using Fields.toList.induct with
  | case1 => rfl
  | case2 key value rest ih => rw [toList, ofList, ih]

theorem nonBlank_eq_some {text : Text} :
    fields.nonBlank key = some text ↔ fields.get key = some (.string text) ∧ trim text ≠ [] := by
  rw [nonBlank, Option.filter_eq_some_iff, Option.bind_eq_some_iff]
  simp only [decide_eq_true_eq]
  refine and_congr_left fun _ => ⟨?_, fun found => ⟨_, found, rfl⟩⟩
  rintro ⟨value, found, text⟩
  cases value <;> cases text
  exact found

theorem nonBlank_present {text : Text} (found : fields.nonBlank key = some text) :
    fields.present.nonBlank key = some text := by
  obtain ⟨found, some⟩ := nonBlank_eq_some.mp found
  exact nonBlank_eq_some.mpr ⟨get_present found (fun null => nomatch null), some⟩

end Fields

structure Admissible (kind : RetrievalKind) (operation : Fields) : Prop where
  known : ∀ key ∈ operation.keys, key ∈ kind.contract.allowedFields
  given : ∀ key ∈ kind.contract.required, (operation.get key).getD .null ≠ .null
  notBlank : ∀ key ∈ kind.contract.required, key ≠ "operation" → (operation.nonBlank key).isSome
  covered : kind = .symbolsOverview → (operation.nonBlank "path").isSome ∨
    ((operation.get "paths").bind Value.asArray).any (· ≠ [])
  paths : ∀ value, operation.get "paths" = some value → value.asStrings.isSome
  detail : ∀ value, operation.get "response_detail" = some value →
    value ∈ responseDetails.map Value.str
  typed : ∀ field ∈ operation.toList, field.2 ≠ .null → fieldFault field = none

def Spelled (operation : Fields) : RetrievalKind → Prop
  | .searchText => ∀ style, (operation.get "syntax").bind Value.asStr = some style →
      (TextSyntax.spelling.parse style).isSome
  | .findReferences =>
    (∀ scope, (operation.get "reference_scope").bind Value.asStr = some scope →
      (ReferenceScope.spelling.parse scope).isSome) ∧
    ∀ kinds, (operation.get "reference_kinds").bind Value.asStrings = some kinds →
      ∀ kind ∈ kinds, (ReferenceKind.spelling.parse kind).isSome
  | .read => ∀ target, (operation.get "target").bind Value.asStr = some target →
      (ReadTargetKind.spelling.parse target).isSome
  | .findFile | .findSymbol | .symbolsOverview | .repoMap => True

section

variable {kind : RetrievalKind} {name : Text} {operation : Fields}

theorem retrievalContract_eq_some {contract : ContractSpec} :
    retrievalContract name = some contract ↔ ∃ kind : RetrievalKind, kind.name = name ∧
      kind.contract = contract := by
  rw [retrievalContract, Option.map_eq_some_iff]
  simp only [Spelling.parse_eq_some]

theorem contract_name_eq : kind.contract.name = "symbols_overview" ↔ kind = .symbolsOverview := by
  cases kind <;> decide

theorem unknownFields_eq_nil {contract : ContractSpec} : unknownFields contract operation = [] ↔
    ∀ key ∈ operation.keys, key ∈ contract.allowedFields := by
  rw [unknownFields, List.filter_eq_nil_iff]
  simp

theorem missingFields_eq_nil {contract : ContractSpec} : missingFields contract operation = [] ↔
    ∀ key ∈ contract.required, (operation.get key).getD .null ≠ .null := by
  rw [missingFields, List.filter_eq_nil_iff]
  simp

theorem validateFields_eq_ok {contract : ContractSpec} {missing unknown : ErrorCode}
    {context : String} {u : Unit} :
    validateFields contract operation missing unknown context = .ok u ↔
      (∀ key ∈ operation.keys, key ∈ contract.allowedFields) ∧
      ∀ key ∈ contract.required, (operation.get key).getD .null ≠ .null := by
  rw [validateFields, bind_eq_ok]
  simp only [require_eq_ok, decide_eq_true_eq, unknownFields_eq_nil, missingFields_eq_nil,
    exists_const]

theorem typedOperation_eq_ok {explain : String → Value → String} {input : OperationInput} :
    typedOperation explain name operation = .ok input ↔
      (∀ field ∈ operation.toList, field.2 ≠ .null → fieldFault field = none) ∧
      .ofFields operation.present = input := by
  have sound : operation.present.toList.findSome? fieldFault = none ↔
      ∀ field ∈ operation.toList, field.2 ≠ .null → fieldFault field = none := by
    rw [List.findSome?_eq_none_iff, Fields.present, Fields.toList_ofList]
    simp
  rw [typedOperation, ← sound]
  cases operation.present.toList.findSome? fieldFault <;> simp

theorem validateRetrievalOperation_eq_ok {u : Unit} :
    validateRetrievalOperation name operation = .ok u ↔ ∃ kind : RetrievalKind, kind.name = name ∧
      ((∀ key ∈ operation.keys, key ∈ kind.contract.allowedFields) ∧
        ∀ key ∈ kind.contract.required, (operation.get key).getD .null ≠ .null) ∧
      (∀ key ∈ kind.contract.required, key ≠ "operation" → (operation.nonBlank key).isSome) ∧
      (kind = .symbolsOverview → (operation.nonBlank "path").isSome ∨
        ((operation.get "paths").bind Value.asArray).any (· ≠ [])) ∧
      (∀ value, operation.get "paths" = some value → value.asStrings.isSome) ∧
      ∀ value, operation.get "response_detail" = some value →
        value ∈ responseDetails.map Value.str := by
  simp only [validateRetrievalOperation, bind_eq_ok, okOr_eq_ok, retrievalContract_eq_some,
    validateFields_eq_ok, forM_eq_ok, requireNonEmptyString, require_eq_ok, exists_const]
  constructor
  · rintro ⟨contract, ⟨kind, named, rfl⟩, fields, notBlank, covered, paths, detail⟩
    refine ⟨kind, named, fields, ?_, ?_, ?_, ?_⟩
    · exact fun key mem differ => notBlank key (List.mem_filter.mpr ⟨mem, by simpa using differ⟩)
    · rintro rfl
      simpa [RetrievalKind.contract] using covered
    · simpa [Option.all_eq_true] using paths
    · simpa [Option.all_eq_true] using detail
  · rintro ⟨kind, named, fields, notBlank, covered, paths, detail⟩
    refine ⟨_, ⟨kind, named, rfl⟩, fields, ?_, ?_, ?_, ?_⟩
    · intro key mem
      obtain ⟨mem, differ⟩ := List.mem_filter.mp mem
      exact notBlank key mem (by simpa using differ)
    · by_cases overview : kind = .symbolsOverview
      · have := covered overview
        simp only [Bool.or_eq_true, decide_eq_true_eq]
        tauto
      · have differ : kind.contract.name ≠ "symbols_overview" := mt contract_name_eq.mp overview
        simp [differ]
    · simpa [Option.all_eq_true] using paths
    · simpa [Option.all_eq_true] using detail

theorem prepareRetrievalOperation_eq_ok {explain : String → Value → String}
    {parsed : ParsedOperation} :
    prepareRetrievalOperation explain name operation = .ok parsed ↔ ∃ kind : RetrievalKind,
      kind.name = name ∧ Admissible kind operation ∧
        parseOperation name (.ofFields operation.present) = .ok parsed := by
  simp only [prepareRetrievalOperation, bind_eq_ok, validateRetrievalOperation_eq_ok,
    typedOperation_eq_ok]
  constructor
  · rintro ⟨-, ⟨kind, named, ⟨known, given⟩, notBlank, covered, paths, detail⟩, _, ⟨typed, rfl⟩,
      parsed⟩
    exact ⟨kind, named, ⟨known, given, notBlank, covered, paths, detail, typed⟩, parsed⟩
  · rintro ⟨kind, named, ⟨known, given, notBlank, covered, paths, detail, typed⟩, parsed⟩
    exact ⟨(), ⟨kind, named, ⟨known, given⟩, notBlank, covered, paths, detail⟩, _, ⟨typed, rfl⟩,
      parsed⟩

theorem required_eq_ok {field : String} {fields : Fields} {text : Text} :
    required field ((fields.get field).bind Value.asStr) = .ok text ↔
      fields.nonBlank field = some text :=
  okOr_eq_ok

theorem Admissible.text (admissible : Admissible kind operation) (key : String)
    (mem : key ∈ kind.contract.required) (differ : key ≠ "operation") :
    ∃ text, required key ((operation.present.get key).bind Value.asStr) = .ok text := by
  obtain ⟨text, found⟩ := Option.isSome_iff_exists.mp (admissible.notBlank key mem differ)
  exact ⟨text, required_eq_ok.mpr (Fields.nonBlank_present found)⟩

theorem asStrings_ne_nil {value : Value} {items : List Value} (array : value.asArray = some items)
    (some : items ≠ []) {texts : List Text} (strings : value.asStrings = .some texts) :
    texts ≠ [] := by
  rw [Value.asStrings, array, Option.bind_some] at strings
  rintro rfl
  cases items with
  | nil => exact some rfl
  | cons item rest => simp [Option.bind_eq_some_iff] at strings

theorem Admissible.scopePaths (admissible : Admissible .symbolsOverview operation) :
    (OperationInput.ofFields operation.present).scopePaths ≠ [] := by
  have input : ∀ input : RetrievalOperationInput, input.path.isSome ∨ input.paths.getD [] ≠ [] →
      input.scopePaths ≠ [] := by
    rintro ⟨path, paths⟩ some
    cases path with
    | none => simpa [RetrievalOperationInput.scopePaths] using some
    | some path =>
      simp only [RetrievalOperationInput.scopePaths]
      split
      · exact List.ne_nil_of_mem ‹_›
      · exact List.append_ne_nil_of_right_ne_nil _ (List.cons_ne_nil _ _)
  apply input
  rcases admissible.covered rfl with path | paths
  · obtain ⟨path, found⟩ := Option.isSome_iff_exists.mp path
    have there := (Fields.nonBlank_eq_some.mp (Fields.nonBlank_present found)).1
    exact .inl (by simp [OperationInput.ofFields, there, Value.asStr])
  · obtain ⟨items, array, some⟩ := (Option.any_eq_true _ _).mp paths
    obtain ⟨value, found, array⟩ := Option.bind_eq_some_iff.mp array
    obtain ⟨texts, strings⟩ := Option.isSome_iff_exists.mp (admissible.paths value found)
    have there := Fields.get_present found fun null => by
      rw [null] at array
      cases array
    refine .inr ?_
    simpa [OperationInput.ofFields, there, strings] using
      asStrings_ne_nil array (by simpa using some) strings

theorem isOk_map {A B : Type} {f : A → B} {result : AppResult A} :
    (result.map f).isOk = result.isOk := by
  cases result <;> rfl

theorem isOk_bind {A B : Type} {f : A → AppResult B} {result : AppResult A} :
    (result >>= f).isOk ↔ ∃ a, result = .ok a ∧ (f a).isOk := by
  cases result with
  | error error => exact ⟨(nomatch ·), fun ⟨_, same, _⟩ => nomatch same⟩
  | ok a => exact ⟨fun ok => ⟨a, rfl, ok⟩, fun ⟨_, same, ok⟩ => by cases same; exact ok⟩

theorem isOk_okOr {A : Type} {value : Option A} {error : AppError} :
    (okOr value error).isOk = value.isSome := by
  cases value <;> rfl

theorem parseSyntax_isOk {style : Option Text} : (parseSyntax name style).isOk ↔
    ∀ text, style = some text → (TextSyntax.spelling.parse text).isSome := by
  cases style with
  | none => simp [parseSyntax]
  | some text => simp [parseSyntax, isOk_okOr]

theorem parseScope_isOk {scope : Option Text} : (parseScope scope).isOk ↔
    ∀ text, scope = some text → (ReferenceScope.spelling.parse text).isSome := by
  cases scope with
  | none => simp [parseScope]
  | some text => simp [parseScope, isOk_okOr]

theorem mapM_isSome {A B : Type} {f : A → Option B} {items : List A} :
    (items.mapM f).isSome ↔ ∀ item ∈ items, (f item).isSome := by
  induction items with
  | nil => simp
  | cons item rest ih =>
    rw [List.forall_mem_cons, ← ih, List.mapM_cons]
    cases f item <;> cases rest.mapM f <;> simp

theorem isOk_iff_exists {A : Type} {result : AppResult A} :
    result.isOk ↔ ∃ a, result = .ok a := by
  cases result <;> simp

theorem Admissible.parse_isOk (admissible : Admissible kind operation) :
    (parseOperation kind.name (.ofFields operation.present)).isOk ↔
      Spelled operation.present kind := by
  cases kind with
  | findFile =>
    obtain ⟨text, name⟩ := admissible.text "name" (by decide) (by decide)
    simp [parseOperation, searchTarget, OperationInput.ofFields, Spelled, isOk_map, name,
      isOk_bind]
  | findSymbol =>
    obtain ⟨text, symbol⟩ := admissible.text "symbol" (by decide) (by decide)
    simp [parseOperation, searchTarget, OperationInput.ofFields, Spelled, isOk_map, symbol,
      isOk_bind]
  | searchText =>
    obtain ⟨text, pattern⟩ := admissible.text "pattern" (by decide) (by decide)
    simp [parseOperation, searchTarget, OperationInput.ofFields, Spelled, isOk_map, pattern,
      isOk_bind, ← isOk_iff_exists, parseSyntax_isOk]
  | findReferences =>
    obtain ⟨text, symbol⟩ := admissible.text "symbol" (by decide) (by decide)
    rw [parseOperation, RetrievalKind.name, Spelling.parse_name]
    simp only [isOk_map, searchTarget, referenceQuery, OperationInput.ofFields, symbol, isOk_bind,
      Except.ok.injEq, exists_eq_left', isOk_ok, and_true, ← isOk_iff_exists, isOk_okOr, Spelled]
    rw [exists_and_right, ← isOk_iff_exists, parseScope_isOk, mapM_isSome]
    cases (operation.present.get "reference_kinds").bind Value.asStrings <;> simp
  | symbolsOverview =>
    have paths := admissible.scopePaths
    simp [parseOperation, searchTarget, Spelled, isOk_map, isOk_bind, paths]
  | repoMap => simp [parseOperation, searchTarget, Spelled, isOk_map]
  | read =>
    obtain ⟨text, target⟩ := admissible.text "target" (by decide) (by decide)
    obtain ⟨value, valued⟩ := admissible.text "value" (by decide) (by decide)
    have named := (Fields.nonBlank_eq_some.mp (required_eq_ok.mp target)).1
    rw [named, Option.bind_some, Value.asStr] at target
    simp [parseOperation, readOperation, OperationInput.ofFields, Spelled, isOk_map, isOk_bind,
      target, valued, named, Value.asStr, Option.isSome_iff_exists]

end

end CodeWeave
