import CodeWeave.Defs.Intelligence.Session

namespace CodeWeave

structure ReferencesRequest where
  path : Text
  position : Position
  maxResults : Nat

/-- A `references` answer that is returned as semantic and current.  `files` is a ghost:
what the ranges were converted against. -/
structure SemanticReferences where
  response : ReferenceResponse
  synchronized : WorkerResponse
  files : ResultFiles

-- What a fallback answers with is left out.
inductive ReferencesAnswer
  | semantic (answer : SemanticReferences)
  | fallback (reason : Option FallbackReason)

def ReferencesAnswer.semantic? : ReferencesAnswer → Option SemanticReferences
  | .semantic answer => some answer
  | .fallback _ => none

theorem ReferencesAnswer.eq_semantic {answer : ReferencesAnswer} {semantic : SemanticReferences}
    (h : answer.semantic? = some semantic) : answer = .semantic semantic := by
  cases answer with
  | semantic answer => cases h; rfl
  | fallback reason => cases h

def referenceCaveat : String :=
  "Language-server locations were produced from a full-text synchronized document hash that " ++
    "still matches disk and the live index."

def locationItems : Value → List Value
  | .array items => items.toList
  | .null => []
  | item => [item]

def convertRange (content : Text) (range : Value) (encoding : PositionEncoding) :
    AppResult ReferenceRange := do
  let (startLine, startCharacter) ← lspPosition (range.field "start")
  let (endLine, endCharacter) ← lspPosition (range.field "end")
  let start ← utf16CharacterFromServer content startLine startCharacter encoding
  let finish ← utf16CharacterFromServer content endLine endCharacter encoding
  .ok ⟨⟨startLine + 1, start + 1, none⟩, ⟨endLine + 1, finish + 1, none⟩⟩

def locationRange (item : Value) : AppResult Value :=
  okOr ((item.get "range").or (item.get "targetSelectionRange"))
    (.new .invalidLspResponse "Location lacks range")

def SemanticReferences.shaped (answer : SemanticReferences) : Nat := answer.files.clock + 2

namespace Interleaving

variable {ws : Workspace} (moments : Interleaving ws) (codec : UriCodec)

def normalizeLocation (encoding : PositionEncoding) (files : ResultFiles) (item : Value) :
    AppResult (SemanticReferenceLocation × ResultFiles) := do
  let uri ← okOr (((item.get "uri").or (item.get "targetUri")).bind Value.asStr)
    (.new .invalidLspResponse "Location lacks URI")
  let range ← locationRange item
  let relative ← codec.relative uri
  let (file, files) ← moments.content files relative
  let range ← convertRange file.text range encoding
  .ok (⟨relative, range⟩, files)

def normalizeReferenceLocations (encoding : PositionEncoding) :
    ResultFiles → List Value → AppResult (List SemanticReferenceLocation × ResultFiles)
  | files, [] => .ok ([], files)
  | files, item :: rest => do
    let (location, files) ← moments.normalizeLocation codec encoding files item
    let (locations, files) ← normalizeReferenceLocations encoding files rest
    .ok (location :: locations, files)

variable (scan : OccurrenceScan)

def interpretReferences (session : Session) (line : Nat) (response : WorkerResponse)
    (files : ResultFiles) :
    AppResult (ReferenceTargetSelection × List SemanticReferenceLocation × ResultFiles) := do
  let (locations, files) ← moments.normalizeReferenceLocations codec
    response.capabilities.positionEncoding files (locationItems response.result)
  let target ← (moments.index files.clock).resolvePosition scan session.relative line
  .ok (target, locations, files)

def references (encoder : HandleEncoder ws) (backend : Option (SemanticBackend ws))
    (request : ReferencesRequest) : AppResult ReferencesAnswer := do
  let session ← moments.openSession request.path
  match backend with
  | none => .ok (.fallback none)
  | some backend =>
    match moments.semantic codec session backend (.references request.position)
      (moments.interpretReferences codec scan session request.position.line) with
    | .error error => .ok (.fallback (some ⟨error, backend.status⟩))
    | .ok ((target, locations, files), response) =>
      let snapshotId := moments.snapshotId (files.clock + 1)
      let shaped := (moments.index (files.clock + 2)).semantic encoder snapshotId target locations
        request.maxResults referenceCaveat
      .ok (.semantic ⟨shaped, response, files⟩)

def Converted (encoding : PositionEncoding) (items : List Value) (text : Text)
    (range : ReferenceRange) : Prop :=
  ∃ item ∈ items, ∃ value, locationRange item = .ok value ∧
    convertRange text value encoding = .ok range

variable {moments codec scan}

theorem normalizeLocation_reads {encoding : PositionEncoding} {files later : ResultFiles}
    {item : Value} {location : SemanticReferenceLocation}
    (h : moments.normalizeLocation codec encoding files item = .ok (location, later)) :
    moments.Reads files later ∧ ∃ file, later.contents.lookup location.path = some file ∧
      Converted encoding [item] file.text location.range := by
  simp only [normalizeLocation, bind_eq_ok] at h
  obtain ⟨uri, -, value, ranged, relative, -, ⟨file, after⟩, read, range, converted, h⟩ := h
  cases h
  obtain ⟨reads, found⟩ := content_reads read
  exact ⟨reads, file, found, item, List.mem_singleton_self item, value, ranged, converted⟩

theorem normalizeReferenceLocations_reads {encoding : PositionEncoding} {items : List Value}
    {files later : ResultFiles} {locations : List SemanticReferenceLocation}
    (h : moments.normalizeReferenceLocations codec encoding files items = .ok (locations, later)) :
    moments.Reads files later ∧ ∀ location ∈ locations, ∃ file,
      later.contents.lookup location.path = some file ∧
        Converted encoding items file.text location.range := by
  induction items generalizing files locations with
  | nil =>
    cases h
    exact ⟨.refl _, nofun⟩
  | cons item rest ih =>
    simp only [normalizeReferenceLocations, bind_eq_ok] at h
    obtain ⟨⟨location, between⟩, first, ⟨more, after⟩, others, h⟩ := h
    cases h
    obtain ⟨reads, file, found, mine⟩ := normalizeLocation_reads first
    obtain ⟨later_reads, each⟩ := ih others
    refine ⟨reads.trans later_reads, fun other mem => ?_⟩
    cases List.mem_cons.mp mem with
    | inl same =>
      obtain ⟨item, only, value, ranged, converted⟩ := mine
      rw [List.mem_singleton.mp only] at ranged
      rw [same]
      exact ⟨file, later_reads.kept _ _ found, _, List.mem_cons_self, value, ranged, converted⟩
    | inr later_one =>
      obtain ⟨file, found, item, known, value, ranged, converted⟩ := each other later_one
      exact ⟨file, found, item, List.mem_cons_of_mem _ known, value, ranged, converted⟩

theorem references_semantic {encoder : HandleEncoder ws} {backend : Option (SemanticBackend ws)}
    {request : ReferencesRequest} {answer : SemanticReferences}
    (h : moments.references codec scan encoder backend request = .ok (.semantic answer)) :
    ∃ snapshotId target locations,
      answer.response = (moments.index answer.shaped).semantic encoder snapshotId target locations
        request.maxResults referenceCaveat ∧
      (∀ path file, answer.files.contents.lookup path = some file → moments.Current path file) ∧
      ∀ location ∈ locations, ∃ file,
        answer.files.contents.lookup location.path = some file ∧
          Converted answer.synchronized.capabilities.positionEncoding
            (locationItems answer.synchronized.result) file.text location.range := by
  simp only [references, bind_eq_ok] at h
  obtain ⟨session, -, h⟩ := h
  split at h
  · cases h
  · split at h
    · cases h
    · next target locations files response attempt =>
      cases h
      simp only [semantic, interpretReferences, bind_eq_ok] at attempt
      obtain ⟨answered, -, -, -, value, interpreted, attempt⟩ := attempt
      cases attempt
      obtain ⟨⟨found, after⟩, normalized, selected, -, interpreted⟩ := interpreted
      cases interpreted
      obtain ⟨reads, each⟩ := normalizeReferenceLocations_reads normalized
      refine ⟨_, _, _, rfl, reads.current fun path file none_yet => ?_, each⟩
      cases none_yet

variable (moments)

/-- What is indexed for a path at one moment is what the disk held at another. -/
def Settled (path : Text) (read shaped : Nat) : Prop :=
  ∀ entry, moments.file path shaped = some entry →
    moments.readText path maxResultFileBytes read = .ok (some entry.content)

end Interleaving

/-- The handle of a location, where it has one, bears the hash of a text, and its
preview shows the lines of the text. -/
structure Describes (ws : Workspace) (text : Text) (location : ReferenceLocation) : Prop where
  preview : ∀ preview, location.preview = some preview →
    preview = sliceLines text location.startLine location.endLine
  handle : ∀ token, location.handle = some token → ∃ handle,
    (stripPrefix "range:".toList token).map ws.decodeWire = some (.ok handle) ∧
      handle.contentHash = ws.contentHash text

theorem decodeWire_encodeHandle {ws : Workspace} (encoder : HandleEncoder ws)
    (handle : RangeHandleWire) :
    (stripPrefix "range:".toList (encodeHandle encoder handle)).map ws.decodeWire =
      some (.ok handle) := by
  have parts : encodeHandle encoder handle = "range:".toList ++ encoder.encode handle := rfl
  rw [parts, stripPrefix_append, Option.map_some, encoder.decode_encode]

theorem describes_iff_settled {ws : Workspace} {moments : Interleaving ws}
    (distinct : Function.Injective ws.contentHash) (encoder : HandleEncoder ws)
    {location : SemanticReferenceLocation} {read : ReadFile} {shaped : Nat}
    (current : moments.Current location.path read) :
    Describes ws read.text ((moments.index shaped).semanticLocation encoder location) ↔
      moments.Settled location.path read.moment shaped := by
  cases found : moments.file location.path shaped with
  | none =>
    have absent : (moments.index shaped).get location.path = none := found
    constructor
    · intro _ entry indexed
      rw [found] at indexed
      cases indexed
    · intro _
      constructor
      · intro preview shown
        simp [CodeIndex.semanticLocation, absent] at shown
      · intro token shown
        simp [CodeIndex.semanticLocation, absent] at shown
  | some entry =>
    have indexed : (moments.index shaped).get location.path = some entry := found
    have own := moments.hash_file found
    constructor
    · intro describes other same
      rw [found] at same
      cases same
      obtain ⟨handle, decoded, hash⟩ := describes.handle _
        (congrArg (Option.map fun file : FileEntry => encodeHandle encoder
          ⟨ws.id, location.path, location.range.start.line, location.range.finish.line, file.hash⟩)
          indexed)
      rw [decodeWire_encodeHandle] at decoded
      cases decoded
      rw [own] at hash
      rw [distinct hash]
      exact current.read
    · intro settled
      have same : entry.content = read.text := by
        have both := current.read.symm.trans (settled entry found)
        simpa using both.symm
      constructor
      · intro preview shown
        simp only [CodeIndex.semanticLocation, indexed, Option.map_some, Option.some.injEq,
          same] at shown
        exact shown.symm
      · intro token shown
        simp only [CodeIndex.semanticLocation, indexed, Option.map_some, Option.some.injEq]
          at shown
        rw [← shown, decodeWire_encodeHandle]
        exact ⟨_, rfl, own.trans (congrArg ws.contentHash same)⟩

/-- A location of a semantic answer describes the text its range was converted against
exactly where the index still has that text for its path, or nothing, when the answer is
shaped. -/
theorem references_describe_iff (ws : Workspace) (moments : Interleaving ws) (codec : UriCodec)
    (scan : OccurrenceScan) (encoder : HandleEncoder ws) (backend : Option (SemanticBackend ws))
    (request : ReferencesRequest) (answer : SemanticReferences)
    (distinct : Function.Injective ws.contentHash)
    (answered : moments.references codec scan encoder backend request = .ok (.semantic answer)) :
    ∀ location ∈ answer.response.results, ∃ read,
      answer.files.contents.lookup location.path = some read ∧
        moments.Current location.path read ∧
        Interleaving.Converted answer.synchronized.capabilities.positionEncoding
          (locationItems answer.synchronized.result) read.text location.range ∧
        (Describes ws read.text location ↔
          moments.Settled location.path read.moment answer.shaped) := by
  obtain ⟨snapshotId, target, locations, response, current, each⟩ :=
    Interleaving.references_semantic answered
  intro location mem
  rw [response] at mem
  obtain ⟨found, known, rfl⟩ := CodeIndex.mem_semantic_results _ encoder mem
  obtain ⟨read, here, converted⟩ := each found known
  have fresh := current _ _ here
  exact ⟨read, here, fresh, converted, describes_iff_settled distinct encoder fresh⟩

namespace Sample

def callingF (content : String) : Disk :=
  Disk.holding [(["a".toList], "f\n".toList), (["b".toList], content.toList)]

def referencesF (between : Nat → List Action) : Interleaving declaring where
  start := .opened declaring (callingF "old\n")
  opened := declaring.opened_opened (by decide +kernel)
  between
  faults _ _ := none

def findsB : SemanticBackend declaring where
  languageId := "rust".toList
  execute _ document := .ok ⟨json [("uri", .str "file:///w/b"), ("range", json [
    ("start", json [("line", .number 0), ("character", .number 0)]),
    ("end", json [("line", .number 0), ("character", .number 3)])])], ⟨document.hash, 1⟩, .none⟩
  status := .null

def answersF (between : Nat → List Action) : AppResult ReferencesAnswer :=
  (referencesF between).references (.new false "/w".toList none) (fun _ _ _ _ => []) handles
    (some findsB) ⟨"a".toList, ⟨1, 0⟩, 10⟩

def movingB : Nat → List Action
  | 8 => [.disk (callingF "new\n"), .rescan .calm (.ok .default)]
  | _ => []

end Sample

open Sample in
theorem references_unmoved :
    ∃ answer location read, answersF (fun _ => []) = .ok (.semantic answer) ∧
      location ∈ answer.response.results ∧
      answer.files.contents.lookup location.path = some read ∧
      Describes declaring read.text location := by
  have facts : ((answersF fun _ => []).toOption.bind ReferencesAnswer.semantic?).any
      (fun answer => answer.response.results.any fun location =>
        (answer.files.contents.lookup location.path).any fun read =>
          ((referencesF fun _ => []).file location.path answer.shaped).all fun entry =>
            (referencesF fun _ => []).readText location.path maxResultFileBytes read.moment =
              .ok (some entry.content)) = true := by
    decide +kernel
  obtain ⟨answer, answered, facts⟩ := (Option.any_eq_true _ _).mp facts
  obtain ⟨some_answer, ok, semantic⟩ := Option.bind_eq_some_iff.mp answered
  obtain ⟨location, mem, facts⟩ := List.any_eq_true.mp facts
  obtain ⟨read, here, facts⟩ := (Option.any_eq_true _ _).mp facts
  cases ReferencesAnswer.eq_semantic semantic
  have answered := eq_ok_of_toOption ok
  obtain ⟨_, found, -, -, iff⟩ := references_describe_iff declaring (referencesF fun _ => [])
    (.new false "/w".toList none) (fun _ _ _ _ => []) handles (some findsB)
    ⟨"a".toList, ⟨1, 0⟩, 10⟩ answer (fun _ _ same => same) answered location mem
  cases here.symm.trans found
  refine ⟨answer, location, read, answered, mem, here, iff.mpr fun entry indexed => ?_⟩
  rw [indexed] at facts
  exact of_decide_eq_true facts

open Sample in
theorem references_moved :
    ∃ answer location read, answersF movingB = .ok (.semantic answer) ∧
      location ∈ answer.response.results ∧
      answer.files.contents.lookup location.path = some read ∧
      read.text = "old\n".toList ∧ location.preview = some "new".toList ∧
      ¬Describes declaring read.text location := by
  have facts : ((answersF movingB).toOption.bind ReferencesAnswer.semantic?).any
      (fun answer => answer.response.results.any fun location =>
        (answer.files.contents.lookup location.path).any fun read =>
          read.text = "old\n".toList ∧ location.preview = some "new".toList ∧
            sliceLines read.text location.startLine location.endLine ≠ "new".toList) = true := by
    decide +kernel
  obtain ⟨answer, answered, facts⟩ := (Option.any_eq_true _ _).mp facts
  obtain ⟨some_answer, ok, semantic⟩ := Option.bind_eq_some_iff.mp answered
  obtain ⟨location, mem, facts⟩ := List.any_eq_true.mp facts
  obtain ⟨read, here, facts⟩ := (Option.any_eq_true _ _).mp facts
  cases ReferencesAnswer.eq_semantic semantic
  obtain ⟨text, shown, other⟩ := of_decide_eq_true facts
  refine ⟨answer, location, read, eq_ok_of_toOption ok, mem, here, text, shown, ?_⟩
  intro describes
  exact other (describes.preview _ shown).symm

end CodeWeave
