import CodeWeave.Defs.Requests.OperationLaws

namespace CodeWeave

def Word (n : Nat) : Prop := n < 18446744073709551616

def NotBlank (text : Text) : Prop := trim text ≠ []

def textArray (texts : List Text) : Value := .list (texts.map Value.string)

def count (n : Nat) : Value := .number n

namespace OperationTarget

def kind : OperationTarget → RetrievalKind
  | .index (.text _) => .searchText
  | .index (.filename _) => .findFile
  | .index (.symbol _) => .findSymbol
  | .index .repoMap => .repoMap
  | .references _ _ _ => .findReferences
  | .outline => .symbolsOverview

def given : OperationTarget → List (String × Option Value)
  | .index (.text query) => [("pattern", some (.string query.pattern)),
      ("syntax", some (.string (TextSyntax.spelling.name query.style))),
      ("case_sensitive", some (.bool query.caseSensitive)),
      ("context_lines", some (count query.contextLines))]
  | .index (.filename query) => [("name", some (.string query.name)),
      ("case_sensitive", some (.bool query.caseSensitive))]
  | .index (.symbol query) => [("symbol", some (.string query.name))]
  | .index .repoMap => []
  | .references query definitionPath definitionLine => [("symbol", some (.string query.symbol)),
      ("reference_scope", some (.string (ReferenceScope.spelling.name query.scope))),
      ("reference_kinds", some (textArray (query.kinds.map ReferenceKind.spelling.name))),
      ("definition_path", definitionPath.map .string),
      ("definition_line", definitionLine.map count),
      ("context_lines", some (count query.contextLines))]
  | .outline => []

def WellFormed (paths : List Text) : OperationTarget → Prop
  | .index (.text query) => NotBlank query.pattern ∧ query.contextLines ≤ 20
  | .index (.filename query) => NotBlank query.name
  | .index (.symbol query) => NotBlank query.name
  | .index .repoMap => True
  | .references query _ definitionLine => NotBlank query.symbol ∧ query.contextLines ≤ 20 ∧
      ∀ line, definitionLine = some line → Word line
  | .outline => paths ≠ []

end OperationTarget

namespace ReadOperationTarget

def kind : ReadOperationTarget → ReadTargetKind
  | .content (.file (.path _ _ _)) => .path
  | .content (.file (.handle _)) => .handle
  | .content (.file (.continuation _)) => .continuation
  | .content (.symbol _ _ _ _) => .symbol
  | .content (.bashLog _) => .bashLog
  | .metadata _ => .metadata
  | .bashStatus _ => .bashStatus

def value : ReadOperationTarget → Text
  | .content (.file (.path path _ _)) => path
  | .content (.file (.handle value)) => value
  | .content (.file (.continuation value)) => value
  | .content (.symbol name _ _ _) => name
  | .content (.bashLog value) => value
  | .metadata path => path
  | .bashStatus value => value

def given : ReadOperationTarget → List (String × Option Value)
  | .content (.file (.path _ startLine endLine)) =>
    [("start_line", startLine.map count), ("end_line", endLine.map count)]
  | .content (.symbol _ path contextLines includeImports) => [("path", path.map .string),
      ("surrounding_lines", some (count contextLines)),
      ("include_imports", some (.bool includeImports))]
  | _ => []

def WellFormed : ReadOperationTarget → Prop
  | .content (.file (.path _ startLine endLine)) =>
    (∀ line, startLine = some line → Word line) ∧ ∀ line, endLine = some line → Word line
  | .content (.symbol _ _ contextLines _) => contextLines ≤ 200
  | _ => True

end ReadOperationTarget

namespace ParsedOperation

def kind : ParsedOperation → RetrievalKind
  | .search operation => operation.target.kind
  | .read _ => .read

def given : ParsedOperation → List (String × Option Value)
  | .search operation => operation.target.given ++
      [("paths", some (textArray operation.paths)),
        ("max_results", some (count operation.maxResults))]
  | .read request => ("target", some (.string (ReadTargetKind.spelling.name request.target.kind))) ::
      ("value", some (.string request.target.value)) :: request.target.given ++
      [("max_chars", some (count request.maxChars)),
        ("response_detail", if request.compact then some (.str "compact") else none)]

def render (parsed : ParsedOperation) : Fields :=
  .given (("operation", some (.string parsed.kind.name)) :: parsed.given)

def WellFormed : ParsedOperation → Prop
  | .search operation => operation.target.WellFormed operation.paths ∧ Word operation.maxResults
  | .read request => NotBlank request.target.value ∧ request.target.WellFormed ∧
      request.maxChars ≤ maxReadMaxChars

end ParsedOperation

@[simp] theorem asStrings_textArray (texts : List Text) :
    (textArray texts).asStrings = some texts := by
  rw [textArray, Value.list, Value.asStrings, Value.asArray, Items.toList_ofList, Option.bind_some]
  induction texts with
  | nil => rfl
  | cons text rest ih => simp [ih, Value.asStr]

theorem asU64_count {n : Nat} (word : Word n) : (count n).asU64 = some n := by
  rw [Word] at word
  rw [count, Value.asU64, if_pos (by omega), Int.toNat_natCast]

theorem Word.of_asU64 {value : Value} {n : Nat} (read : value.asU64 = some n) : Word n := by
  cases value with
  | number m =>
    rw [Value.asU64] at read
    split at read
    · cases read
      rw [Word]
      omega
    · cases read
  | null | bool | decimal | string | array | object => cases read

theorem fault_textArray (texts : List Text) : FieldType.texts.fault (textArray texts) = none := by
  rw [textArray, Value.list, FieldType.fault, Items.toList_ofList, Option.map_eq_none_iff,
    List.findIdx?_eq_none_iff]
  simp [Value.asStr]

section

variable {explain : String → Value → String}

theorem known_render (parsed : ParsedOperation) :
    ∀ key ∈ parsed.render.keys, key ∈ parsed.kind.contract.allowedFields := by
  have known : ∀ field ∈ parsed.given, field.1 ∈ parsed.kind.contract.allowedFields := by
    rcases parsed with ⟨⟨⟨_ | _ | _ | _⟩ | _ | _, _, _⟩⟩ |
      ⟨⟨⟨⟨_ | _ | _⟩ | _ | _⟩ | _ | _, _, _⟩⟩ <;>
    simp [ParsedOperation.given, ParsedOperation.kind, OperationTarget.given, OperationTarget.kind,
      ReadOperationTarget.given, RetrievalKind.contract, ContractSpec.allowedFields]
  intro key among
  obtain ⟨field, mem, rfl⟩ := List.mem_map.mp among
  rcases List.mem_cons.mp (Fields.mem_given.mp mem) with same | mem
  · rw [(Prod.mk.inj same).1]
    cases parsed.kind <;> decide
  · exact known _ mem

theorem get_render (parsed : ParsedOperation) {key : String} (differ : "operation" ≠ key) :
    parsed.render.get key = (Fields.given parsed.given).get key := by
  rw [ParsedOperation.render, Fields.get_given, Fields.get_given, List.findSome?_cons,
    if_neg differ]

theorem get_render_operation (parsed : ParsedOperation) :
    parsed.render.get "operation" = some (.string parsed.kind.name) := by
  rw [ParsedOperation.render, Fields.get_given, List.findSome?_cons, if_pos rfl]

theorem notBlank_name (kind : ReadTargetKind) : trim (ReadTargetKind.spelling.name kind) ≠ [] := by
  cases kind <;> decide

theorem notBlank_render {parsed : ParsedOperation} (well : parsed.WellFormed) :
    ∀ key ∈ parsed.kind.contract.required, key ≠ "operation" →
      (parsed.render.nonBlank key).isSome := by
  intro key mem differ
  rw [Fields.nonBlank, get_render parsed differ.symm]
  revert key
  cases parsed with
  | search operation =>
    rcases operation with ⟨⟨_ | _ | _ | _⟩ | _ | _, _, _⟩ <;>
    simp_all [ParsedOperation.given, ParsedOperation.kind, OperationTarget.given,
      OperationTarget.kind, RetrievalKind.contract, Fields.get_given, Value.asStr, NotBlank,
      ParsedOperation.WellFormed, OperationTarget.WellFormed]
  | read request =>
    have value : trim request.target.value ≠ [] := well.1
    simp [ParsedOperation.given, ParsedOperation.kind, RetrievalKind.contract, Fields.get_given,
      Value.asStr, notBlank_name, value]

theorem given_render {parsed : ParsedOperation} (well : parsed.WellFormed) :
    ∀ key ∈ parsed.kind.contract.required, (parsed.render.get key).getD .null ≠ .null := by
  intro key mem
  by_cases operation : key = "operation"
  · rw [operation, get_render_operation]
    exact fun null => nomatch null
  · obtain ⟨text, found⟩ := Option.isSome_iff_exists.mp (notBlank_render well key mem operation)
    rw [(Fields.nonBlank_eq_some.mp found).1]
    exact fun null => nomatch null

theorem get_paths (operation : SearchOperation) :
    (ParsedOperation.search operation).render.get "paths" = some (textArray operation.paths) := by
  rw [get_render _ (by decide)]
  rcases operation with ⟨⟨_ | _ | _ | _⟩ | _ | _, _, _⟩ <;>
  simp [ParsedOperation.given, OperationTarget.given, Fields.get_given]

theorem paths_render (parsed : ParsedOperation) :
    ∀ value, parsed.render.get "paths" = some value → value.asStrings.isSome := by
  intro value found
  cases parsed with
  | search operation =>
    rw [get_paths, Option.some.injEq] at found
    rw [← found, asStrings_textArray, Option.isSome_some]
  | read request =>
    rw [get_render _ (by decide)] at found
    rcases request with ⟨⟨⟨_ | _ | _⟩ | _ | _⟩ | _ | _, _, _⟩ <;>
    simp [ParsedOperation.given, ReadOperationTarget.given, Fields.get_given] at found

theorem detail_render (parsed : ParsedOperation) : ∀ value,
    parsed.render.get "response_detail" = some value → value ∈ responseDetails.map Value.str := by
  intro value found
  rw [get_render _ (by decide)] at found
  cases parsed with
  | search operation =>
    rcases operation with ⟨⟨_ | _ | _ | _⟩ | _ | _, _, _⟩ <;>
    simp [ParsedOperation.given, OperationTarget.given, Fields.get_given] at found
  | read request =>
    rcases request with ⟨⟨⟨_ | _ | _⟩ | _ | _⟩ | _ | _, _, _⟩ <;>
    simp [ParsedOperation.given, ReadOperationTarget.given, Fields.get_given, responseDetails]
      at found ⊢ <;>
    exact .inl found.2.symm

theorem fault_eq_none {key : String} {type : FieldType} {value : Value}
    (declared : operationFields.lookup key = some type) (sound : type.fault value = none) :
    fieldFault (key, value) = none := by
  rw [fieldFault, declared, Option.bind_some, sound, Option.map_none]

theorem fault_text (text : Text) : FieldType.text.fault (.string text) = none := rfl

theorem fault_flag (b : Bool) : FieldType.flag.fault (.bool b) = none := rfl

theorem fault_count {n : Nat} (word : Word n) : FieldType.count.fault (count n) = none := by
  rw [FieldType.fault, asU64_count word, Option.isSome_some, if_pos rfl]

def Typed (fields : List (String × Option Value)) : Prop :=
  ∀ field ∈ fields, ∀ value, field.2 = some value → fieldFault (field.1, value) = none

theorem Typed.nil : Typed [] := fun _ none => absurd none List.not_mem_nil

theorem Typed.cons {key : String} {type : FieldType} {given : Option Value}
    {rest : List (String × Option Value)} (declared : operationFields.lookup key = some type)
    (sound : ∀ value, given = some value → type.fault value = none) (typed : Typed rest) :
    Typed ((key, given) :: rest) := by
  intro field mem value found
  rcases List.mem_cons.mp mem with rfl | mem
  · exact fault_eq_none declared (sound value found)
  · exact typed field mem value found

theorem Typed.append {first second : List (String × Option Value)} (typed : Typed first)
    (typed' : Typed second) : Typed (first ++ second) := by
  intro field mem
  rcases List.mem_append.mp mem with mem | mem
  · exact typed field mem
  · exact typed' field mem

section

variable {key : String} {rest : List (String × Option Value)}

theorem Typed.optionalText {given : Option Text}
    (declared : operationFields.lookup key = some .text) (typed : Typed rest) :
    Typed ((key, given.map Value.string) :: rest) := by
  apply Typed.cons declared _ typed
  intro value found
  obtain ⟨text, -, rfl⟩ := Option.map_eq_some_iff.mp found
  exact fault_text text

theorem Typed.text {text : Text} (declared : operationFields.lookup key = some .text)
    (typed : Typed rest) : Typed ((key, some (.string text)) :: rest) :=
  show Typed ((key, (some text).map Value.string) :: rest) from .optionalText declared typed

theorem Typed.optionalCount {given : Option Nat}
    (declared : operationFields.lookup key = some .count)
    (words : ∀ n, given = some n → Word n) (typed : Typed rest) :
    Typed ((key, given.map count) :: rest) := by
  apply Typed.cons declared _ typed
  intro value found
  obtain ⟨n, some, rfl⟩ := Option.map_eq_some_iff.mp found
  exact fault_count (words n some)

theorem Typed.count {n : Nat} (declared : operationFields.lookup key = some .count)
    (word : Word n) (typed : Typed rest) : Typed ((key, some (CodeWeave.count n)) :: rest) :=
  typed.cons declared fun _ same => by cases same; exact fault_count word

theorem Typed.flag {b : Bool} (declared : operationFields.lookup key = some .flag)
    (typed : Typed rest) : Typed ((key, some (.bool b)) :: rest) :=
  typed.cons declared fun _ same => by cases same; exact fault_flag b

theorem Typed.texts {texts : List Text} (declared : operationFields.lookup key = some .texts)
    (typed : Typed rest) : Typed ((key, some (textArray texts)) :: rest) :=
  typed.cons declared fun _ same => by cases same; exact fault_textArray texts

end

theorem Word.small {n : Nat} (below : n ≤ 200000) : Word n := by
  rw [Word]
  omega

theorem OperationTarget.WellFormed.typed {target : OperationTarget} {paths : List Text}
    (well : target.WellFormed paths) : Typed target.given := by
  match target, well with
  | .index (.text query), well =>
    exact .text rfl (.text rfl (.flag rfl (.count rfl (.small (by have := well.2; omega)) .nil)))
  | .index (.filename query), _ => exact .text rfl (.flag rfl .nil)
  | .index (.symbol query), _ => exact .text rfl .nil
  | .index .repoMap, _ => exact .nil
  | .references query _ _, well =>
    exact .text rfl (.text rfl (.texts rfl (.optionalText rfl (.optionalCount rfl well.2.2
      (.count rfl (.small (by have := well.2.1; omega)) .nil)))))
  | .outline, _ => exact .nil

theorem ReadOperationTarget.WellFormed.typed {target : ReadOperationTarget}
    (well : target.WellFormed) : Typed target.given := by
  match target, well with
  | .content (.file (.path _ _ _)), well =>
    exact .optionalCount rfl well.1 (.optionalCount rfl well.2 .nil)
  | .content (.file (.handle _)), _ => exact .nil
  | .content (.file (.continuation _)), _ => exact .nil
  | .content (.symbol _ _ contextLines _), well =>
    have below : contextLines ≤ 200 := well
    exact .optionalText rfl (.count rfl (.small (by omega)) (.flag rfl .nil))
  | .content (.bashLog _), _ => exact .nil
  | .metadata _, _ => exact .nil
  | .bashStatus _, _ => exact .nil

theorem typed_render {parsed : ParsedOperation} (well : parsed.WellFormed) :
    ∀ field ∈ parsed.render.toList, field.2 ≠ .null → fieldFault field = none := by
  have typed : Typed (("operation", some (.string parsed.kind.name)) :: parsed.given) := by
    apply Typed.text rfl
    cases parsed with
    | search operation =>
      exact well.1.typed.append (.texts rfl (.count rfl well.2 .nil))
    | read request =>
      apply Typed.text rfl (Typed.text rfl (well.2.1.typed.append (.count rfl (.small well.2.2) _)))
      apply Typed.cons (show operationFields.lookup "response_detail" = some .text from rfl) _ .nil
      intro value found
      split at found
      · cases found
        rfl
      · cases found
  intro field mem _
  exact typed _ (Fields.mem_given.mp mem) field.2 rfl

theorem Admissible.render {parsed : ParsedOperation} (well : parsed.WellFormed) :
    Admissible parsed.kind parsed.render where
  known := known_render parsed
  given := given_render well
  notBlank := notBlank_render well
  covered overview := by
    cases parsed with
    | search operation =>
      refine .inr ?_
      rw [get_paths]
      obtain ⟨target, paths, maxResults⟩ := operation
      rcases target with ⟨_ | _ | _ | _⟩ | _ | _ <;> cases overview
      have some : paths ≠ [] := well.1
      simp [textArray, Value.list, Value.asArray, some]
    | read request => cases overview
  paths := paths_render parsed
  detail := detail_render parsed
  typed := typed_render well

theorem present_render (parsed : ParsedOperation) : parsed.render.present = parsed.render := by
  have some : ∀ field ∈ parsed.given, field.2 ≠ some .null := by
    rcases parsed with ⟨⟨⟨_ | _ | _ | _⟩ | _ | _, _, _⟩⟩ |
      ⟨⟨⟨⟨_ | _ | _⟩ | _ | _⟩ | _ | _, _, _⟩⟩ <;>
    simp [ParsedOperation.given, OperationTarget.given, ReadOperationTarget.given, textArray, count,
      Value.list, Value.str]
  rw [← Fields.ofList_toList parsed.render, Fields.present, Fields.toList_ofList]
  congr 1
  rw [List.filter_eq_self]
  intro field mem
  rcases List.mem_cons.mp (Fields.mem_given.mp mem) with same | mem
  · have text : field.2 = .string parsed.kind.name := Option.some.inj (Prod.mk.inj same).2
    simp [text]
  · simpa using some _ mem

theorem required_of_notBlank {field : String} {text : Text} (some : NotBlank text) :
    required field (.some text) = .ok text := by
  rw [required, Option.filter_some, if_pos (decide_eq_true (show trim text ≠ [] from some))]
  rfl

theorem parseSyntax_name {name : Text} (style : TextSyntax) :
    parseSyntax name (some (TextSyntax.spelling.name style)) = .ok style := by
  rw [parseSyntax, Spelling.parse_name]
  rfl

theorem parseScope_name (scope : ReferenceScope) :
    parseScope (some (ReferenceScope.spelling.name scope)) = .ok scope := by
  rw [parseScope, Spelling.parse_name]
  rfl

theorem mapM_kinds (kinds : List ReferenceKind) :
    (kinds.map ReferenceKind.spelling.name).mapM ReferenceKind.spelling.parse = some kinds :=
  ReferenceKind.spelling.mapM_parse_names kinds

section

variable {fields : Fields} {name : Text}

theorem search_text {query : TextQuery} (some : NotBlank query.pattern)
    (below : query.contextLines ≤ 20)
    (pattern : (fields.get "pattern").bind Value.asStr = .some query.pattern)
    (style : (fields.get "syntax").bind Value.asStr =
      .some (TextSyntax.spelling.name query.style))
    (caseSensitive : (fields.get "case_sensitive").bind Value.asBool = .some query.caseSensitive)
    (contextLines : (fields.get "context_lines").bind Value.asU64 = .some query.contextLines) :
    searchTarget name (.ofFields fields) .searchText = .ok (.index (.text query)) := by
  simp only [searchTarget, OperationInput.ofFields, pattern, required_of_notBlank some, style,
    parseSyntax_name, caseSensitive, contextLines, Option.getD_some, Nat.min_eq_left below]
  rfl

theorem search_filename {query : FilenameQuery} (some : NotBlank query.name)
    (named : (fields.get "name").bind Value.asStr = .some query.name)
    (caseSensitive : (fields.get "case_sensitive").bind Value.asBool = .some query.caseSensitive) :
    searchTarget name (.ofFields fields) .findFile = .ok (.index (.filename query)) := by
  simp only [searchTarget, OperationInput.ofFields, named, required_of_notBlank some,
    caseSensitive, Option.getD_some]
  rfl

theorem search_symbol {query : SymbolQuery} (some : NotBlank query.name)
    (symbol : (fields.get "symbol").bind Value.asStr = .some query.name) :
    searchTarget name (.ofFields fields) .findSymbol = .ok (.index (.symbol query)) := by
  simp only [searchTarget, OperationInput.ofFields, symbol, required_of_notBlank some]
  rfl

theorem search_references {query : ReferenceQuery} {definitionPath : Option Text}
    {definitionLine : Option Nat} (some : NotBlank query.symbol) (below : query.contextLines ≤ 20)
    (symbol : (fields.get "symbol").bind Value.asStr = .some query.symbol)
    (scope : (fields.get "reference_scope").bind Value.asStr =
      .some (ReferenceScope.spelling.name query.scope))
    (kinds : (fields.get "reference_kinds").bind Value.asStrings =
      .some (query.kinds.map ReferenceKind.spelling.name))
    (path : (fields.get "definition_path").bind Value.asStr = definitionPath)
    (line : (fields.get "definition_line").bind Value.asU64 = definitionLine)
    (contextLines : (fields.get "context_lines").bind Value.asU64 = .some query.contextLines) :
    searchTarget name (.ofFields fields) .findReferences =
      .ok (.references query definitionPath definitionLine) := by
  simp only [searchTarget, referenceQuery, OperationInput.ofFields, symbol,
    required_of_notBlank some, scope, parseScope_name, kinds, path, line, contextLines,
    Option.getD_some, Nat.min_eq_left below, mapM_kinds]
  rfl

end

theorem get_render_of_given {parsed : ParsedOperation} {key : String} {value : Option Value}
    (differ : "operation" ≠ key) (given : (parsed.given.findSome? fun field =>
      if field.1 = key then field.2 else none) = value) : parsed.render.get key = value := by
  rw [get_render parsed differ, Fields.get_given, given]

section

variable (paths : List Text) (maxResults : Nat)

def OperationTarget.input (target : OperationTarget) : OperationInput :=
  .ofFields (ParsedOperation.search ⟨target, paths, maxResults⟩).render

variable {paths maxResults} {target : OperationTarget}

section

variable {parsed : ParsedOperation} {key : String} (differ : "operation" ≠ key)

include differ

theorem text_render {text : Text}
    (given : (parsed.given.findSome? fun field => if field.1 = key then field.2 else none) =
      some (.string text)) : (parsed.render.get key).bind Value.asStr = some text := by
  rw [get_render_of_given differ given]
  rfl

theorem optionalText_render {text : Option Text}
    (given : (parsed.given.findSome? fun field => if field.1 = key then field.2 else none) =
      text.map .string) : (parsed.render.get key).bind Value.asStr = text := by
  rw [get_render_of_given differ given]
  cases text <;> rfl

theorem count_render {n : Nat} (word : Word n)
    (given : (parsed.given.findSome? fun field => if field.1 = key then field.2 else none) =
      some (count n)) : (parsed.render.get key).bind Value.asU64 = some n := by
  rw [get_render_of_given differ given, Option.bind_some, asU64_count word]

theorem optionalCount_render {n : Option Nat} (words : ∀ m, n = some m → Word m)
    (given : (parsed.given.findSome? fun field => if field.1 = key then field.2 else none) =
      n.map count) : (parsed.render.get key).bind Value.asU64 = n := by
  rw [get_render_of_given differ given]
  cases n with
  | none => rfl
  | some n => rw [Option.map_some, Option.bind_some, asU64_count (words n rfl)]

theorem flag_render {b : Bool}
    (given : (parsed.given.findSome? fun field => if field.1 = key then field.2 else none) =
      some (.bool b)) : (parsed.render.get key).bind Value.asBool = some b := by
  rw [get_render_of_given differ given]
  rfl

theorem texts_render {texts : List Text}
    (given : (parsed.given.findSome? fun field => if field.1 = key then field.2 else none) =
      some (textArray texts)) : (parsed.render.get key).bind Value.asStrings = some texts := by
  rw [get_render_of_given differ given, Option.bind_some, asStrings_textArray]

end

theorem OperationTarget.scopePaths_input (target : OperationTarget) (paths : List Text)
    (maxResults : Nat) : (target.input paths maxResults).scopePaths = paths := by
  have path : (target.input paths maxResults).path = none := by
    have none : (ParsedOperation.search ⟨target, paths, maxResults⟩).render.get "path" = none :=
      get_render_of_given (by decide) (by rcases target with ⟨_ | _ | _ | _⟩ | _ | _ <;> rfl)
    rw [OperationTarget.input, OperationInput.ofFields]
    simp only [none, Option.bind_none]
  have given : (target.input paths maxResults).paths = some paths := by
    rw [OperationTarget.input, OperationInput.ofFields]
    simp only [get_paths, Option.bind_some, asStrings_textArray]
  rw [RetrievalOperationInput.scopePaths, path, given]
  rfl

theorem OperationTarget.maxResults_input (target : OperationTarget) (paths : List Text)
    (word : Word maxResults) :
    (target.input paths maxResults).maxResults = some maxResults :=
  count_render (by decide) word (by rcases target with ⟨_ | _ | _ | _⟩ | _ | _ <;> rfl)

theorem OperationTarget.WellFormed.search (well : target.WellFormed paths) (maxResults : Nat) :
    searchTarget target.kind.name (target.input paths maxResults) target.kind = .ok target := by
  match target, well with
  | .index (.text query), ⟨notBlank, below⟩ =>
    have below : query.contextLines ≤ 20 := below
    exact search_text notBlank below (text_render (by decide) rfl) (text_render (by decide) rfl)
      (flag_render (by decide) rfl) (count_render (by decide) (.small (by omega)) rfl)
  | .index (.filename query), notBlank =>
    exact search_filename notBlank (text_render (by decide) rfl) (flag_render (by decide) rfl)
  | .index (.symbol query), notBlank =>
    exact search_symbol notBlank (text_render (by decide) rfl)
  | .index .repoMap, _ => rfl
  | .references query path line, ⟨notBlank, below, words⟩ =>
    have below : query.contextLines ≤ 20 := below
    exact search_references notBlank below (text_render (by decide) rfl)
      (text_render (by decide) rfl) (texts_render (by decide) rfl)
      (optionalText_render (by decide) (by cases path <;> rfl))
      (optionalCount_render (by decide) words (by cases line <;> rfl))
      (count_render (by decide) (.small (by omega)) rfl)
  | .outline, within =>
    rw [OperationTarget.kind, searchTarget, OperationTarget.scopePaths_input, require,
      if_pos (decide_eq_true (show paths ≠ [] from within))]
    rfl

end

section

variable {request : ReadRequest}

theorem readTargetOf_render (well : request.target.WellFormed) :
    readTargetOf (.ofFields (ParsedOperation.read request).render) request.target.value
      request.target.kind = request.target := by
  match request, well with
  | ⟨.content (.file (.path path start finish)), _, _⟩, ⟨startWords, endWords⟩ =>
    simp only [ReadOperationTarget.kind, readTargetOf, OperationInput.ofFields,
      ReadOperationTarget.value]
    rw [optionalCount_render (by decide) startWords (by cases start <;> rfl),
      optionalCount_render (by decide) endWords (by cases start <;> cases finish <;> rfl)]
  | ⟨.content (.file (.handle _)), _, _⟩, _ => rfl
  | ⟨.content (.file (.continuation _)), _, _⟩, _ => rfl
  | ⟨.content (.symbol name path contextLines includeImports), maxChars, compact⟩, below =>
    let render := (ParsedOperation.read
      ⟨.content (.symbol name path contextLines includeImports), maxChars, compact⟩).render
    have below : contextLines ≤ 200 := below
    have owner : (render.get "path").bind Value.asStr = path :=
      optionalText_render (by decide) (by cases path <;> rfl)
    have around : (render.get "surrounding_lines").bind Value.asU64 = some contextLines :=
      count_render (by decide) (.small (by omega)) (by cases path <;> rfl)
    have imports : (render.get "include_imports").bind Value.asBool = some includeImports :=
      flag_render (by decide) (by cases path <;> rfl)
    simp only [ReadOperationTarget.kind, readTargetOf, OperationInput.ofFields,
      ReadOperationTarget.value]
    rw [owner, around, imports, Option.getD_some, Option.getD_some, Nat.min_eq_left below]
  | ⟨.content (.bashLog _), _, _⟩, _ => rfl
  | ⟨.metadata _, _, _⟩, _ => rfl
  | ⟨.bashStatus _, _, _⟩, _ => rfl

theorem maxChars_render (below : request.maxChars ≤ maxReadMaxChars) :
    ((ParsedOperation.read request).render.get "max_chars").bind Value.asU64 =
      some request.maxChars := by
  apply count_render (by decide) (.small below)
  rcases request with ⟨⟨⟨_ | _ | _⟩ | _ | _⟩ | _ | _, _, _⟩ <;>
  simp [ParsedOperation.given, ReadOperationTarget.given]

theorem compact_render (request : ReadRequest) :
    decide (((ParsedOperation.read request).render.get "response_detail").bind Value.asStr =
      some "compact".toList) = request.compact := by
  have given : (ParsedOperation.read request).render.get "response_detail" =
      if request.compact then some (.str "compact") else none := by
    apply get_render_of_given (by decide)
    rcases request with ⟨⟨⟨_ | _ | _⟩ | _ | _⟩ | _ | _, _, _⟩ <;>
    simp [ParsedOperation.given, ReadOperationTarget.given]
  rw [given]
  cases request.compact <;> rfl

theorem readOperation_render (notBlank : NotBlank request.target.value)
    (well : request.target.WellFormed) (below : request.maxChars ≤ maxReadMaxChars) :
    readOperation (.ofFields (ParsedOperation.read request).render) = .ok request := by
  have target := readTargetOf_render well
  have named : ((ParsedOperation.read request).render.get "target").bind Value.asStr =
    some (ReadTargetKind.spelling.name request.target.kind) := text_render (by decide) rfl
  have value : ((ParsedOperation.read request).render.get "value").bind Value.asStr =
    some request.target.value := text_render (by decide) rfl
  have compact := compact_render request
  have applied : min request.maxChars maxReadMaxChars = request.maxChars := Nat.min_eq_left below
  rw [readOperation]
  simp only [OperationInput.ofFields, named, value, maxChars_render below,
    required_of_notBlank (notBlank_name _), required_of_notBlank notBlank] at target ⊢
  change okOr (ReadTargetKind.spelling.parse _) _ >>= _ = _
  rw [Spelling.parse_name]
  change Except.ok (ReadRequest.mk _ _ _) = _
  rw [target, Option.getD_some, applied, compact]

theorem parseOperation_search {kind : RetrievalKind} (differ : kind ≠ .read)
    (input : OperationInput) : parseOperation kind.name input =
      (searchTarget kind.name input kind).map fun target =>
        .search ⟨target, input.scopePaths, input.maxResults.getD 20⟩ := by
  rw [parseOperation, RetrievalKind.name, Spelling.parse_name]
  cases kind with
  | read => exact absurd rfl differ
  | findFile | findSymbol | searchText | findReferences | symbolsOverview | repoMap => rfl

theorem OperationTarget.kind_ne_read (target : OperationTarget) : target.kind ≠ .read := by
  rcases target with ⟨_ | _ | _ | _⟩ | _ | _ <;> exact fun same => nomatch same

theorem parse_render {parsed : ParsedOperation} (well : parsed.WellFormed) :
    parseOperation parsed.kind.name (.ofFields parsed.render) = .ok parsed := by
  cases parsed with
  | search operation =>
    obtain ⟨target, paths, maxResults⟩ := operation
    have found := well.1.search maxResults
    have scope := target.scopePaths_input paths maxResults
    have limit := target.maxResults_input paths well.2
    rw [OperationTarget.input] at found scope limit
    rw [ParsedOperation.kind, parseOperation_search target.kind_ne_read, found, scope, limit]
    rfl
  | read request =>
    rw [parseOperation, RetrievalKind.name, Spelling.parse_name]
    change (readOperation _).map _ = _
    rw [readOperation_render well.1 well.2.1 well.2.2]
    rfl

theorem notBlank_of_required {field : String} {value : Option Text} {text : Text}
    (read : required field value = .ok text) : NotBlank text := by
  have kept := okOr_eq_ok.mp read
  exact of_decide_eq_true (p := trim text ≠ []) (Option.filter_eq_some_iff.mp kept).2

theorem word_of_count {fields : Fields} {key : String} {n : Nat}
    (read : (fields.get key).bind Value.asU64 = some n) : Word n := by
  obtain ⟨value, -, read⟩ := Option.bind_eq_some_iff.mp read
  exact .of_asU64 read

theorem word_getD {fields : Fields} {key : String} {default : Nat} (small : default ≤ 200000) :
    Word (((fields.get key).bind Value.asU64).getD default) := by
  cases read : (fields.get key).bind Value.asU64 with
  | none => exact .small small
  | some n => exact word_of_count read

theorem wellFormed_of_searchTarget {name : Text} {kind : RetrievalKind} {fields : Fields}
    {target : OperationTarget} (read : searchTarget name (.ofFields fields) kind = .ok target) :
    target.WellFormed (OperationInput.ofFields fields).scopePaths ∧ target.kind = kind := by
  cases kind with
  | findFile =>
    obtain ⟨text, named, same⟩ := bind_eq_ok.mp read
    cases same
    exact ⟨notBlank_of_required named, rfl⟩
  | findSymbol =>
    obtain ⟨text, symbol, same⟩ := bind_eq_ok.mp read
    cases same
    exact ⟨notBlank_of_required symbol, rfl⟩
  | searchText =>
    obtain ⟨text, pattern, read⟩ := bind_eq_ok.mp read
    obtain ⟨style, -, same⟩ := bind_eq_ok.mp read
    cases same
    exact ⟨⟨notBlank_of_required pattern, Nat.min_le_right _ _⟩, rfl⟩
  | findReferences =>
    obtain ⟨text, symbol, read⟩ := bind_eq_ok.mp read
    obtain ⟨scope, -, read⟩ := bind_eq_ok.mp read
    obtain ⟨kinds, -, same⟩ := bind_eq_ok.mp read
    cases same
    exact ⟨⟨notBlank_of_required symbol, Nat.min_le_right _ _, fun _ => word_of_count⟩, rfl⟩
  | symbolsOverview =>
    obtain ⟨_, within, same⟩ := bind_eq_ok.mp read
    cases same
    exact ⟨of_decide_eq_true (p := _ ≠ _) (require_eq_ok.mp within), rfl⟩
  | repoMap =>
    cases read
    exact ⟨trivial, rfl⟩
  | read => cases read

theorem readTargetOf_value (input : OperationInput) (value : Text) (kind : ReadTargetKind) :
    (readTargetOf input value kind).value = value := by
  cases kind <;> rfl

theorem wellFormed_readTargetOf {fields : Fields} (value : Text) (kind : ReadTargetKind) :
    (readTargetOf (.ofFields fields) value kind).WellFormed := by
  cases kind with
  | path => exact ⟨fun _ => word_of_count, fun _ => word_of_count⟩
  | symbol => exact Nat.min_le_right _ _
  | handle | metadata | bashStatus | bashLog | continuation => trivial

theorem wellFormed_of_readOperation {fields : Fields} {request : ReadRequest}
    (read : readOperation (.ofFields fields) = .ok request) :
    (ParsedOperation.read request).WellFormed := by
  obtain ⟨target, -, read⟩ := bind_eq_ok.mp read
  obtain ⟨value, valued, read⟩ := bind_eq_ok.mp read
  obtain ⟨kind, -, same⟩ := bind_eq_ok.mp read
  cases same
  refine ⟨?_, wellFormed_readTargetOf value kind, Nat.min_le_right _ _⟩
  rw [readTargetOf_value]
  exact notBlank_of_required valued

theorem wellFormed_of_parse {kind : RetrievalKind} {fields : Fields} {parsed : ParsedOperation}
    (read : parseOperation kind.name (.ofFields fields) = .ok parsed) :
    parsed.WellFormed ∧ parsed.kind = kind := by
  by_cases differ : kind = .read
  · subst differ
    obtain ⟨request, found, rfl⟩ := exists_of_map_eq_ok read
    exact ⟨wellFormed_of_readOperation found, rfl⟩
  · rw [parseOperation_search differ] at read
    obtain ⟨target, found, rfl⟩ := exists_of_map_eq_ok read
    obtain ⟨well, same⟩ := wellFormed_of_searchTarget found
    exact ⟨⟨well, word_getD (by decide)⟩, same⟩

end

/-- A parsed operation is within its bounds, and each that is can be written and read back. -/
theorem prepared_iff_rendered (explain : String → Value → String) (parsed : ParsedOperation) :
    (parsed.WellFormed ↔
      prepareRetrievalOperation explain parsed.kind.name parsed.render = .ok parsed) ∧
    ∀ name operation, prepareRetrievalOperation explain name operation = .ok parsed →
      parsed.WellFormed ∧ parsed.kind.name = name := by
  have sound : ∀ name operation, prepareRetrievalOperation explain name operation = .ok parsed →
      parsed.WellFormed ∧ parsed.kind.name = name := by
    intro name operation prepared
    obtain ⟨kind, rfl, -, read⟩ := prepareRetrievalOperation_eq_ok.mp prepared
    obtain ⟨well, same⟩ := wellFormed_of_parse read
    exact ⟨well, congrArg RetrievalKind.name same⟩
  refine ⟨⟨fun well => ?_, fun prepared => (sound _ _ prepared).1⟩, sound⟩
  apply prepareRetrievalOperation_eq_ok.mpr ⟨parsed.kind, rfl, .render well, _⟩
  rw [present_render]
  exact parse_render well

/-- The operations that are accepted. -/
theorem accepted_iff (explain : String → Value → String) (name : Text) (operation : Fields) :
    (prepareRetrievalOperation explain name operation).isOk ↔ ∃ kind : RetrievalKind,
      kind.name = name ∧ Admissible kind operation ∧ Spelled operation.present kind := by
  rw [isOk_iff_exists]
  simp only [prepareRetrievalOperation_eq_ok]
  constructor
  · rintro ⟨parsed, kind, rfl, admissible, read⟩
    exact ⟨kind, rfl, admissible, admissible.parse_isOk.mp (isOk_iff_exists.mpr ⟨parsed, read⟩)⟩
  · rintro ⟨kind, rfl, admissible, spelled⟩
    obtain ⟨parsed, read⟩ := isOk_iff_exists.mp (admissible.parse_isOk.mpr spelled)
    exact ⟨parsed, kind, rfl, admissible, read⟩

end

end CodeWeave
