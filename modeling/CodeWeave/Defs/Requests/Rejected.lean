import CodeWeave.Defs.Error

namespace CodeWeave

structure RequestPolicy where
  retryKind : String
  category : String

namespace ErrorCode

def retriesSameRequest : ErrorCode → Bool
  | .staleSnapshot | .staleFile | .staleHandle | .staleContinuation => true
  | _ => false

def requestPolicy : ErrorCode → Option RequestPolicy
  | .missingOperationField | .invalidOperationField | .missingChangeField | .invalidChangeField
  | .invalidBashRequest => some ⟨"fix_request", "invalid_request"⟩
  | .unknownOperationField | .unknownChangeField => some ⟨"remove_field", "invalid_request"⟩
  | .unsupportedRetrievalOperation => some ⟨"choose_supported_operation", "unsupported_request"⟩
  | .unsupportedChangeKind => some ⟨"choose_supported_change", "unsupported_request"⟩
  | _ => none

end ErrorCode

namespace AppError

def build (code : ErrorCode) (message : String) (details : Fields) : AppError :=
  let details := match code.requestPolicy with
    | none => details
    | some policy => ((details.insert "retryable" (.bool false)).insert "retry_kind"
        (.str policy.retryKind)).insert "category" (.str policy.category)
  ⟨code, message, some (.json (.object details))⟩

def withJson (code : ErrorCode) (message : String) (details : List (String × Value)) : AppError :=
  build code message (.ofList details)

@[simp] theorem withJson_code (code : ErrorCode) (message : String)
    (details : List (String × Value)) : (withJson code message details).code = code := rfl

end AppError

namespace Fields

def keys (fields : Fields) : List String := fields.toList.map Prod.fst

def present (fields : Fields) : Fields :=
  .ofList (fields.toList.filter fun field => field.2 ≠ .null)

def given (fields : List (String × Option Value)) : Fields :=
  .ofList (fields.filterMap fun field => field.2.map fun value => (field.1, value))

@[simp] theorem toList_ofList (fields : List (String × Value)) :
    (ofList fields).toList = fields := by
  induction fields with
  | nil => rfl
  | cons field rest ih => rw [ofList, toList, ih]

theorem mem_toList_of_get {key : String} {value : Value} {fields : Fields}
    (found : fields.get key = some value) : (key, value) ∈ fields.toList := by
  induction fields using Fields.get.induct key with
  | case1 => cases found
  | case2 old rest =>
    rw [get, if_pos rfl, Option.some.injEq] at found
    rw [found]
    exact List.mem_cons_self
  | case3 name old rest differ ih =>
    rw [get, if_neg differ] at found
    exact List.mem_cons_of_mem _ (ih found)

theorem get_ofList_cons (key name : String) (value : Value) (rest : List (String × Value)) :
    (ofList ((name, value) :: rest)).get key =
      if name = key then some value else (ofList rest).get key := rfl

theorem get_present {key : String} {value : Value} {fields : Fields}
    (found : fields.get key = some value) (some : value ≠ .null) :
    fields.present.get key = .some value := by
  induction fields using Fields.get.induct key with
  | case1 => cases found
  | case2 old rest =>
    rw [get, if_pos rfl, Option.some.injEq] at found
    subst found
    simp [present, toList, some, get_ofList_cons]
  | case3 name old rest differ ih =>
    rw [get, if_neg differ] at found
    have later := ih found
    rw [present] at later ⊢
    by_cases null : old = .null
    · rw [toList, List.filter_cons_of_neg (by simpa using null), later]
    · rw [toList, List.filter_cons_of_pos (by simpa using null), get_ofList_cons, if_neg differ,
        later]

theorem present_ne_null {field : String × Value} {fields : Fields}
    (mem : field ∈ fields.present.toList) : field.2 ≠ .null := by
  rw [present, toList_ofList, List.mem_filter] at mem
  simpa using mem.2

theorem mem_of_mem_present {field : String × Value} {fields : Fields}
    (mem : field ∈ fields.present.toList) : field ∈ fields.toList := by
  rw [present, toList_ofList] at mem
  exact List.mem_of_mem_filter mem

theorem present_eq_self {fields : Fields} (some : ∀ field ∈ fields.toList, field.2 ≠ .null) :
    fields.present.toList = fields.toList := by
  rw [present, toList_ofList, List.filter_eq_self]
  simpa using some

theorem get_given (key : String) (fields : List (String × Option Value)) :
    (given fields).get key =
      fields.findSome? fun field => if field.1 = key then field.2 else none := by
  induction fields with
  | nil => rfl
  | cons field rest ih =>
    obtain ⟨name, value⟩ := field
    rw [given] at ih ⊢
    cases value with
    | none => simpa using ih
    | some value =>
      by_cases same : name = key
      · simp [same, get_ofList_cons]
      · simpa [same, get_ofList_cons] using ih

theorem mem_given {field : String × Value} {fields : List (String × Option Value)} :
    field ∈ (given fields).toList ↔ (field.1, some field.2) ∈ fields := by
  rw [given, toList_ofList, List.mem_filterMap]
  constructor
  · rintro ⟨⟨name, value⟩, mem, eq⟩
    obtain ⟨value, rfl, rfl⟩ := Option.map_eq_some_iff.mp eq
    exact mem
  · intro mem
    exact ⟨_, mem, rfl⟩

end Fields

end CodeWeave
