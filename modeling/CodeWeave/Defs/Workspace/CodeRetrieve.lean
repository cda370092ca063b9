import CodeWeave.Defs.Requests.Rendered
import CodeWeave.Lib.Batched

namespace CodeWeave

def maxRetrievalOperations : Nat := 12

structure CodeRetrieveRequest where
  operations : List Value
  failFast : Bool
  snapshotId : Option SnapshotId

structure RetrievalResult where
  id : Text
  operation : Text
  result : Value

structure RetrievalFailure where
  id : Text
  operation : Value
  error : AppError

structure CodeRetrieveResponse where
  snapshotId : SnapshotId
  operationCount : Nat
  executedCount : Nat
  resultCount : Nat
  errorCount : Nat
  partialSuccess : Bool
  results : List RetrievalResult
  errors : List RetrievalFailure

/-- What the operations of a batch are answered from. -/
structure RetrievalService where
  searchIndex : SearchOperation → AppResult Value
  readTarget : ReadOperationTarget → Nat → AppResult Value

namespace RetrievalService

variable (service : RetrievalService)

def serve : ParsedOperation → AppResult Value
  | .search operation => service.searchIndex operation
  | .read request =>
    (service.readTarget request.target request.maxChars).map fun result =>
      if request.compact then compactFetchResult result else result

def executeRetrievalOperation (explain : String → Value → String) (kind : Text)
    (operation : Fields) : AppResult Value := do
  let prepared ← prepareRetrievalOperation explain kind operation
  service.serve prepared

end RetrievalService

abbrev PlacedOperation := Value × Nat

def fallbackId (index : Nat) : Text := "op_".toList ++ decimal (index + 1)

def operationId : PlacedOperation → Option Text
  | (.object operation, index) => some ((operation.nonBlank "id").getD (fallbackId index))
  | _ => none

def duplicateId (id : Text) (operation : Fields) : RetrievalFailure :=
  ⟨id, (operation.get "operation").getD .null, .withJson .duplicateRetrievalOperationId
    ("duplicate retrieval operation id '" ++ String.ofList id ++ "'") [("id", .string id)]⟩

section

/- `execute index` is `execute_retrieval_operation` as the operation at `index` meets it: each
operation reads the state of the workspace for itself. -/
variable (execute : Nat → Text → Fields → AppResult Value)

def answerOperation (index : Nat) (id : Text) (operation : Fields) :
    Except RetrievalFailure RetrievalResult :=
  match operation.nonBlank "operation" with
  | none => .error ⟨id, .null, .invalid "retrieval operation requires operation"⟩
  | some kind =>
    match execute index kind operation with
    | .ok result => .ok ⟨id, kind, result⟩
    | .error error => .error ⟨id, .string kind, error⟩

def retrievalStep : Batched.Step (List Text) PlacedOperation RetrievalFailure RetrievalResult
  | seen, (.object operation, index) =>
    let id := (operation.nonBlank "id").getD (fallbackId index)
    if id ∈ seen then (.error (duplicateId id operation), seen)
    else (answerOperation execute index id operation, id :: seen)
  | seen, (_, index) =>
    (.error ⟨fallbackId index, .null, .invalid "retrieval operations must be objects"⟩, seen)

def codeRetrieve (snapshot : SnapshotId) (request : CodeRetrieveRequest) :
    AppResult CodeRetrieveResponse := do
  require (request.operations ≠ []) (.invalid "code_retrieve operations[] cannot be empty")
  require (request.operations.length ≤ maxRetrievalOperations)
    (.withJson .tooManyRetrievalOperations "code_retrieve accepts at most 12 operations"
      [("requested", .number request.operations.length),
        ("maximum", .number maxRetrievalOperations)])
  require (request.snapshotId.all (· = snapshot))
    (staleSnapshotForPaths (request.snapshotId.getD []) snapshot [])
  let (results, errors) := Batched.run (retrievalStep execute) request.failFast [] [] []
    request.operations.zipIdx
  .ok {
    snapshotId := snapshot
    operationCount := request.operations.length
    executedCount := results.length + errors.length
    resultCount := results.length
    errorCount := errors.length
    partialSuccess := results ≠ [] ∧ errors ≠ []
    results
    errors }

/-- What an operation comes to by itself, unless its id is that of an earlier one. -/
def answerAfter (earlier : List PlacedOperation) (operation : PlacedOperation) :
    Except RetrievalFailure RetrievalResult :=
  (retrievalStep execute (earlier.filterMap operationId) operation).1

def SeenAfter (earlier : List PlacedOperation) (seen : List Text) : Prop :=
  ∀ id, id ∈ seen ↔ id ∈ earlier.filterMap operationId

theorem SeenAfter.nil : SeenAfter [] [] := fun _ => Iff.rfl

theorem SeenAfter.step {earlier : List PlacedOperation} {seen : List Text}
    (same : SeenAfter earlier seen) (operation : PlacedOperation) :
    (retrievalStep execute seen operation).1 = answerAfter execute earlier operation ∧
      SeenAfter (earlier ++ [operation]) (retrievalStep execute seen operation).2 := by
  obtain ⟨value, index⟩ := operation
  cases value with
  | object operation =>
    have taken := same ((operation.nonBlank "id").getD (fallbackId index))
    rw [answerAfter, retrievalStep, retrievalStep]
    by_cases seenBefore : (operation.nonBlank "id").getD (fallbackId index) ∈ seen
    · rw [if_pos seenBefore, if_pos (taken.mp seenBefore)]
      refine ⟨rfl, fun id => ?_⟩
      rw [List.filterMap_append, List.mem_append, ← same id]
      simp only [List.filterMap_cons, operationId, List.filterMap_nil, List.mem_singleton]
      exact ⟨.inl, fun either => either.elim (fun seen => seen) fun eq => eq ▸ seenBefore⟩
    · rw [if_neg seenBefore, if_neg (mt taken.mpr seenBefore)]
      refine ⟨rfl, fun id => ?_⟩
      rw [List.filterMap_append, List.mem_append, ← same id, List.mem_cons]
      simp only [List.filterMap_cons, operationId, List.filterMap_nil, List.mem_singleton]
      exact or_comm
  | null | bool | number | decimal | string | array =>
    exact ⟨rfl, fun id => by simp [operationId, retrievalStep, same id]⟩

theorem id_of_answerAfter {earlier : List PlacedOperation} {operation : PlacedOperation}
    {result : RetrievalResult} (answered : answerAfter execute earlier operation = .ok result) :
    operationId operation = some result.id ∧ result.id ∉ earlier.filterMap operationId := by
  obtain ⟨value, index⟩ := operation
  cases value with
  | object fields =>
    rw [answerAfter, retrievalStep] at answered
    split at answered
    · cases answered
    · next fresh =>
      simp only [answerOperation] at answered
      split at answered
      · cases answered
      · split at answered
        · cases answered
          exact ⟨rfl, fresh⟩
        · cases answered
  | null | bool | number | decimal | string | array => cases answered

theorem nodup_ids {operations : List PlacedOperation}
    {outcomes : List (Except RetrievalFailure RetrievalResult)}
    (answers : ∀ index : Nat, outcomes[index]? =
      operations[index]?.map (answerAfter execute (operations.take index)))
    {carried : List (Except RetrievalFailure RetrievalResult)} (front : carried <+: outcomes) :
    ((Batched.successes carried).map RetrievalResult.id).Nodup := by
  have apart : carried.Pairwise fun first second => ∀ one other, first = .ok one →
      second = .ok other → one.id ≠ other.id := by
    refine List.Pairwise.sublist front.sublist (List.pairwise_iff_getElem.mpr ?_)
    intro i j hi hj before one other first second
    have answer (index : Nat) (within : index < outcomes.length) (result : RetrievalResult)
        (same : outcomes[index] = .ok result) : ∃ operation, operations[index]? = some operation ∧
          operationId operation = some result.id ∧
          result.id ∉ (operations.take index).filterMap operationId := by
      have found := answers index
      rw [List.getElem?_eq_getElem within, same] at found
      obtain ⟨operation, there, answered⟩ := Option.map_eq_some_iff.mp found.symm
      exact ⟨operation, there, id_of_answerAfter execute answered⟩
    obtain ⟨operation, there, named, -⟩ := answer i hi one first
    obtain ⟨-, -, -, fresh⟩ := answer j hj other second
    intro same
    refine fresh (List.mem_filterMap.mpr ⟨operation, ?_, same ▸ named⟩)
    exact List.mem_of_getElem? (by rw [List.getElem?_take_of_lt before, there])
  clear answers front
  induction carried with
  | nil => exact List.nodup_nil
  | cons outcome rest ih =>
    obtain ⟨head, tail⟩ := List.pairwise_cons.mp apart
    cases outcome with
    | error error => exact ih tail
    | ok result =>
      refine List.nodup_cons.mpr ⟨?_, ih tail⟩
      intro mem
      obtain ⟨other, mem, same⟩ := List.mem_map.mp mem
      exact head _ ((Batched.mem_successes rest).mp mem) result other rfl rfl same.symm

theorem codeRetrieve_eq_ok {snapshot : SnapshotId} {request : CodeRetrieveRequest}
    {response : CodeRetrieveResponse} :
    codeRetrieve execute snapshot request = .ok response ↔
      (request.operations ≠ [] ∧ request.operations.length ≤ maxRetrievalOperations ∧
        ∀ expected ∈ request.snapshotId, expected = snapshot) ∧
      ∃ results errors, Batched.run (retrievalStep execute) request.failFast [] [] []
          request.operations.zipIdx = (results, errors) ∧
        response = ⟨snapshot, request.operations.length, results.length + errors.length,
          results.length, errors.length, results ≠ [] ∧ errors ≠ [], results, errors⟩ := by
  have precondition : request.snapshotId.all (· = snapshot) ↔
      ∀ expected ∈ request.snapshotId, expected = snapshot := by
    simp [Option.all_eq_true]
  simp only [codeRetrieve, bind_eq_ok, require_eq_ok, decide_eq_true_eq, precondition, exists_const]
  constructor
  · rintro ⟨some, few, current, same⟩
    cases same
    exact ⟨⟨some, few, current⟩, _, _, rfl, rfl⟩
  · rintro ⟨⟨some, few, current⟩, results, errors, ran, rfl⟩
    rw [ran]
    exact ⟨some, few, current, rfl⟩

theorem success_of_answerAfter {earlier : List PlacedOperation} {operation : PlacedOperation}
    {result : RetrievalResult} (answered : answerAfter execute earlier operation = .ok result) :
    ∃ fields, execute operation.2 result.operation fields = .ok result.result := by
  obtain ⟨value, index⟩ := operation
  cases value with
  | object fields =>
    rw [answerAfter, retrievalStep] at answered
    split at answered
    · cases answered
    · simp only [answerOperation] at answered
      split at answered
      · cases answered
      · split at answered
        · next served =>
          cases answered
          exact ⟨fields, served⟩
        · cases answered
  | null | bool | number | decimal | string | array => cases answered

end

structure AnswersBatch (execute : Nat → Text → Fields → AppResult Value)
    (request : CodeRetrieveRequest) (response : CodeRetrieveResponse)
    (outcomes carried : List (Except RetrievalFailure RetrievalResult)) : Prop where
  answers : ∀ index : Nat, outcomes[index]? = request.operations.zipIdx[index]?.map
    (answerAfter execute (request.operations.zipIdx.take index))
  front : carried <+: outcomes
  whole : request.failFast = false ∨ response.errors = [] → carried = outcomes
  stopped : request.failFast = true → response.errors.length ≤ 1 ∧
    ∀ error ∈ response.errors, carried.getLast? = some (.error error)
  results : response.results = Batched.successes carried
  errors : response.errors = Batched.failures carried
  executed : response.executedCount = carried.length
  counted : response.resultCount + response.errorCount = response.executedCount
  partly : response.partialSuccess ↔ 0 < response.resultCount ∧ 0 < response.errorCount
  known : ∀ result ∈ response.results, ∃ kind : RetrievalKind, kind.name = result.operation
  distinct : (response.results.map RetrievalResult.id).Nodup

/-- What the workspace makes of each operation; it may have changed from one to the next. -/
def executions (services : Nat → RetrievalService) (explain : String → Value → String) :
    Nat → Text → Fields → AppResult Value :=
  fun index => (services index).executeRetrievalOperation explain

theorem known_of_execute {services : Nat → RetrievalService} {explain : String → Value → String}
    {index : Nat} {name : Text} {fields : Fields} {result : Value}
    (served : executions services explain index name fields = .ok result) :
    ∃ kind : RetrievalKind, kind.name = name := by
  obtain ⟨prepared, accepted, -⟩ := bind_eq_ok.mp served
  obtain ⟨kind, named, -⟩ := prepareRetrievalOperation_eq_ok.mp accepted
  exact ⟨kind, named⟩

/-- A batch is answered just where it is not empty, not too long and not stale, and then its
operations come to what they come to by themselves: all of them, or those up to the first failure
if it is to fail fast. -/
theorem codeRetrieve_answers (services : Nat → RetrievalService)
    (explain : String → Value → String) (snapshot : SnapshotId) (request : CodeRetrieveRequest) :
    ((codeRetrieve (executions services explain) snapshot request).isOk ↔
      request.operations ≠ [] ∧ request.operations.length ≤ maxRetrievalOperations ∧
        ∀ expected ∈ request.snapshotId, expected = snapshot) ∧
    ∀ response, codeRetrieve (executions services explain) snapshot request = .ok response →
      ∃ outcomes carried,
        AnswersBatch (executions services explain) request response outcomes carried := by
  generalize serve : executions services explain = execute
  refine ⟨?_, fun response answered => ?_⟩
  · rw [isOk_iff_exists]
    simp only [codeRetrieve_eq_ok]
    exact ⟨fun ⟨_, accepted, _⟩ => accepted, fun accepted => ⟨_, accepted, _, _, rfl, rfl⟩⟩
  obtain ⟨-, results, errors, ran, rfl⟩ := (codeRetrieve_eq_ok execute).mp answered
  let outcomes := Batched.outcomes (retrievalStep execute) [] request.operations.zipIdx
  let carried := Batched.carriedOut request.failFast outcomes
  have sorted := (Batched.run_eq (retrievalStep execute) request.failFast [] [] []
    request.operations.zipIdx).symm.trans ran
  obtain ⟨rfl, rfl⟩ := Prod.mk.inj sorted
  have answers : ∀ index : Nat, outcomes[index]? = request.operations.zipIdx[index]?.map
      (answerAfter execute (request.operations.zipIdx.take index)) :=
    fun index => Batched.getElem?_outcomes _ SeenAfter (answerAfter execute)
      (fun _ _ operation same => same.step execute operation) .nil _ index
  have front : carried <+: outcomes := Batched.carriedOut_prefix outcomes request.failFast
  refine ⟨outcomes, carried, answers, front, ?_, ?_, rfl, rfl, ?_, rfl, ?_, ?_,
    nodup_ids execute answers front⟩
  · exact Batched.carriedOut_eq_self outcomes
  · intro fast
    simp only [List.nil_append, Batched.carriedOut, fast, if_true, carried]
    exact ⟨Batched.failures_untilFailure outcomes, fun _ => Batched.getLast?_untilFailure outcomes⟩
  · exact Batched.length_successes_failures carried
  · simp [List.length_pos_iff]
  · intro result mem
    have among := front.subset ((Batched.mem_successes carried).mp mem)
    obtain ⟨index, there⟩ := List.mem_iff_getElem?.mp among
    obtain ⟨operation, -, same⟩ := Option.map_eq_some_iff.mp ((answers index).symm.trans there)
    obtain ⟨fields, served⟩ := success_of_answerAfter execute same
    rw [← serve] at served
    exact known_of_execute served

namespace Sample

def crowded : CodeRetrieveRequest where
  operations := [json [("id", .str "a"), ("operation", .str "repo_map")],
    json [("id", .str "a"), ("operation", .str "read")], .null]
  failFast := false
  snapshotId := none

example : (codeRetrieve (fun _ _ _ => .ok .null) [] crowded).toOption.map (fun response =>
    (response.results.map RetrievalResult.id, response.errors.map RetrievalFailure.id)) =
      some (["a".toList], ["a".toList, "op_3".toList]) := by
  decide +kernel

end Sample

end CodeWeave
