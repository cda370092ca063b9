import CodeWeave.Defs.Intelligence.Publications

namespace CodeWeave

open Overwrite Server

variable {context : RequestContext} {contentHash : Text → ContentHash} {codec : UriCodec}

theorem shown_cases {history : List Exchange} {uri : Text} {diagnostics : Value}
    (h : shown codec history uri = some diagnostics) :
    ∃ before exchange after, history = before ++ exchange :: after ∧
      exchange.patch codec uri = some (some diagnostics) ∧
      ∀ later ∈ after, later.patch codec uri = none := by
  rcases applyAll_cases (history.map (Exchange.patch codec)) uri fun _ => none with
    untouched | ⟨pre, patch, post, split, undecided, decided⟩
  · rw [shown, applyAll_untouched untouched] at h
    cases h
  · obtain ⟨before, rest, rfl, -, split⟩ := List.map_eq_append_iff.mp split
    obtain ⟨exchange, after, rfl, rfl, rfl⟩ := List.map_eq_cons_iff.mp split
    refine ⟨before, exchange, after, rfl, decided.trans (congrArg some h), fun later mem => ?_⟩
    exact undecided _ (List.mem_map_of_mem mem)

theorem patch_of_notice {exchange : Exchange} {uri : Text} {notice : Notice}
    (told : exchange.notice = some (uri, notice)) : exchange.patch codec uri = some none := by
  cases exchange with
  | sent message =>
    have said : noticeOf message = some (uri, notice) := told
    simp [Exchange.patch, said]
  | received => cases told
  | reported => cases told

theorem lastVersion_append {uri : Text} (before : List Exchange) {after : List Exchange}
    (silent : ∀ exchange ∈ after, ∀ notice, exchange.notice ≠ some (uri, notice)) :
    lastVersion uri (before ++ after) = lastVersion uri before := by
  have quiet : noticesFor uri (after.filterMap Exchange.notice) = [] := by
    rw [noticesFor, List.map_eq_nil_iff, List.filter_eq_nil_iff]
    rintro ⟨other, notice⟩ mem named
    obtain ⟨exchange, among, told⟩ := List.mem_filterMap.mp mem
    have same : other = uri := of_decide_eq_true named
    exact silent exchange among notice (same ▸ told)
  have parts : noticesFor uri ((before ++ after).filterMap Exchange.notice) =
      noticesFor uri (before.filterMap Exchange.notice) ++
        noticesFor uri (after.filterMap Exchange.notice) := by
    simp [noticesFor]
  rw [lastVersion, parts, quiet, List.append_nil, lastVersion]

theorem talks_keeps {s t : Server} (talks : Talks context s t) :
    t.documents = s.documents ∧ t.told = s.told := by
  induction talks with
  | refl => exact ⟨rfl, rfl⟩
  | tail _ last ih => exact ⟨last.keeps.1.trans ih.1, last.keeps.2.trans ih.2⟩

theorem synced_documents (document : DocumentSnapshot contentHash) (s : Server) :
    (s.synced document).documents = (planSync document s.documents).2 := by
  unfold synced
  rcases planSync document s.documents with ⟨⟨_ | notification, synchronized, _ | _⟩, documents⟩
  all_goals rfl

theorem mirrors_of_life {s : Server} (life : Life context contentHash s) : Mirrors contentHash s :=
  life.invariant Mirrors.fresh (fun _ _ mirrors turn => mirrors.turn turn)
    fun _ document mirrors => mirrors.synced document

theorem lastVersion_of_execute {document : DocumentSnapshot contentHash}
    {operation : WorkerOperation} {s t : Server} {response : WorkerResponse}
    (life : Life context contentHash s)
    (done : execute context document operation s = .ok response t) :
    lastVersion document.uri t.transport.history = some response.synchronized.version := by
  obtain ⟨talks, synchronized, -⟩ := (spec_execute context s document operation).ok rfl done
  have known : t.documents.lookup document.uri =
      some ⟨document.hash, response.synchronized.version⟩ := by
    rw [(talks_keeps talks).1, synced_documents, synchronized]
    exact AList.lookup_insert _
  obtain ⟨notice, last, version⟩ := (mirrors_of_life (life.execute_ok done)).last known
  rw [lastVersion]
  exact (congrArg (Option.map Notice.version) last).trans (congrArg some version)

/-- The diagnostics of a successful request come from one exchange with the
process, the last that decides them. Where it is a publication with a version,
that is the version the response names just where it is the one last sent for the
document when the publication is received. -/
theorem diagnostics_of_synchronized_text {worker later : WorkerRuntime}
    {answered : List (Command contentHash × Except WorkerError WorkerResponse)}
    (run : Runs.Run (WorkerRuntime.Step context) .new answered worker)
    {command : Command contentHash} {response : WorkerResponse}
    (step : WorkerRuntime.Step context worker (command, .ok response) later)
    (asked : command.operation = .diagnostics) :
    ∃ server before exchange after, later.server = .ready server ∧
      server.transport.history = before ++ exchange :: after ∧
      exchange.patch context.codec command.document.uri = some (some response.result) ∧
      (∀ next ∈ after, next.patch context.codec command.document.uri = none) ∧
      ∀ message awaiting version, exchange = .received message awaiting →
        publishedVersion message = some version →
        (version = response.synchronized.version ↔
          lastVersion command.document.uri before = some version) := by
  obtain ⟨s, t, life, done, kept⟩ := (WorkerRuntime.alive_of_run run).step_ok step
  have lasts := life.execute_ok done
  have cached := ((spec_execute context s command.document command.operation).ok rfl done).2.2 asked
  rw [shows_of_life lasts] at cached
  obtain ⟨before, exchange, after, history, decided, undecided⟩ := shown_cases cached
  refine ⟨t, before, exchange, after, kept, history, decided, undecided, ?_⟩
  rintro message awaiting version rfl -
  have current := lastVersion_of_execute life done
  have silent : ∀ next ∈ Exchange.received message awaiting :: after, ∀ notice,
      next.notice ≠ some (command.document.uri, notice) := by
    intro next mem notice told
    rcases List.mem_cons.mp mem with rfl | mem
    · cases told
    · have patched := undecided next mem
      rw [patch_of_notice told] at patched
      cases patched
  rw [history, lastVersion_append before silent] at current
  rw [current, Option.some.injEq, eq_comm]

def publish (uri : Text) (version : Int) (diagnostic : String) : Value :=
  json [
    ("jsonrpc", .str "2.0"),
    ("method", .str "textDocument/publishDiagnostics"),
    ("params", json [
      ("uri", .string uri),
      ("version", .number version),
      ("diagnostics", .list [.str diagnostic])])]

def publishingProcess : Process := .answering 4 [
  respond 1 (advertise [("textDocumentSync", .number 1)]),
  publish uriA 1 "early",
  publish uriA 1 "late"]

def pushing : ServerCapabilities :=
  ⟨false, false, false, true, false, .full, .utf16, none, none, 5⟩

def diagnosing (content : String) : Command id where
  operation := .diagnostics
  document := .new id uriA "rust".toList content.toList
  io := .starting publishingProcess

def diagnosedOnce : WorkerRuntime := (WorkerRuntime.new.run .plain (diagnosing "x")).2

theorem diagnostics_of_synchronized_text_once :
    ∃ server before exchange after, diagnosedOnce.server = .ready server ∧
      server.transport.history = before ++ exchange :: after ∧
      exchange.patch (.new false "/w".toList none) uriA = some (some (.list [.str "early"])) ∧
      (∀ next ∈ after, next.patch (.new false "/w".toList none) uriA = none) ∧
      ∀ message awaiting version, exchange = .received message awaiting →
        publishedVersion message = some version →
        (version = 1 ↔ lastVersion uriA before = some version) := by
  have answer : (WorkerRuntime.new.run .plain (diagnosing "x")).1 =
      .ok ⟨.list [.str "early"], ⟨"x".toList, 1⟩, pushing⟩ := by decide +kernel
  exact diagnostics_of_synchronized_text (.nil _) (Prod.ext answer rfl) rfl

/-- The second publication for the first version comes after the change to the
second. -/
theorem diagnostics_of_older_text :
    (diagnosedOnce.run .plain (diagnosing "y")).1 =
      .ok ⟨.list [.str "late"], ⟨"y".toList, 2⟩, pushing⟩ ∧
    ((diagnosedOnce.run .plain (diagnosing "y")).2.server.server?.bind fun server =>
      server.transport.history.getLast?) =
        some (.received (publish uriA 1 "late") (some uriA)) ∧
    publishedDiagnostics (publish uriA 1 "late") = some (uriA, .list [.str "late"]) ∧
    publishedVersion (publish uriA 1 "late") = some 1 := by
  decide +kernel

namespace Exchange

def Synchronizes (uri : Text) : Exchange → Prop
  | .sent message => ∃ notice, noticeOf message = some (uri, notice)
  | _ => False

/-- A publication whose URI names the path that `uri` names. -/
def Names (codec : UriCodec) (uri : Text) : Exchange → Prop
  | .received message _ => ∃ published diagnostics,
      publishedDiagnostics message = some (published, diagnostics) ∧
        diagnosticUriMatches codec uri published = true
  | _ => False

def Reports (uri : Text) : Exchange → Prop
  | .reported document _ => document = uri
  | _ => False

theorem patch_eq_none {exchange : Exchange} {uri : Text} (unsynced : ¬exchange.Synchronizes uri)
    (unnamed : ¬exchange.Names codec uri) (unreported : ¬exchange.Reports uri) :
    exchange.patch codec uri = none := by
  cases exchange with
  | sent message =>
    cases said : noticeOf message with
    | none => simp [patch, said]
    | some told =>
      obtain ⟨document, notice⟩ := told
      have other : document ≠ uri := fun same => unsynced ⟨notice, same ▸ said⟩
      simp [patch, said, other]
  | received message awaiting =>
    cases heard : publishedDiagnostics message with
    | none => simp [patch, heard]
    | some publication =>
      obtain ⟨published, diagnostics⟩ := publication
      have misses : diagnosticUriMatches codec uri published = false := by
        rw [← Bool.not_eq_true]
        exact fun named => unnamed ⟨published, diagnostics, heard, named⟩
      have other : published ≠ uri := by
        rintro rfl
        simp [diagnosticUriMatches] at misses
      simp [patch, heard, other, misses]
  | reported document diagnostics =>
    have other : document ≠ uri := unreported
    simp [patch, other]

theorem patch_of_reports (codec : UriCodec) {exchange : Exchange} {uri : Text}
    (reports : exchange.Reports uri) : (exchange.patch codec uri).isSome := by
  cases exchange with
  | sent => exact reports.elim
  | received => exact reports.elim
  | reported document diagnostics =>
    have same : document = uri := reports
    simp [patch, same]

end Exchange

theorem shown_of_last {before after : List Exchange} {exchange : Exchange} {uri : Text}
    {diagnostics : Value} (decided : exchange.patch codec uri = some (some diagnostics))
    (undecided : ∀ later ∈ after, later.patch codec uri = none) :
    shown codec (before ++ exchange :: after) uri = some diagnostics := by
  rw [shown, List.map_append, List.map_cons]
  refine applyAll_last decided (fun patch mem => ?_) _
  obtain ⟨later, among, rfl⟩ := List.mem_map.mp mem
  exact undecided later among

theorem shown_append_of_undecided (before : List Exchange) {after : List Exchange} {uri : Text}
    (undecided : ∀ later ∈ after, later.patch codec uri = none) :
    shown codec (before ++ after) uri = shown codec before uri := by
  rw [shown, List.map_append, applyAll_append]
  refine applyAll_untouched (fun patch mem => ?_) _
  obtain ⟨later, among, rfl⟩ := List.mem_map.mp mem
  exact undecided later among

theorem shown_append_cases (codec : UriCodec) (before after : List Exchange) (uri : Text) :
    (∀ later ∈ after, later.patch codec uri = none) ∨
      ∃ later ∈ after, later.patch codec uri = some (shown codec (before ++ after) uri) := by
  rcases applyAll_cases (after.map (Exchange.patch codec)) uri (shown codec before) with
    untouched | ⟨pre, patch, post, split, -, decided⟩
  · exact .inl fun later mem => untouched _ (List.mem_map_of_mem mem)
  · have mem : patch ∈ after.map (Exchange.patch codec) := by simp [split]
    obtain ⟨later, among, rfl⟩ := List.mem_map.mp mem
    refine .inr ⟨later, among, ?_⟩
    rw [decided, shown, shown, List.map_append, applyAll_append]

theorem diagnosticsFor_iff {uri : Text} {diagnostics : Value} (s : Server) :
    diagnosticsFor context uri s = .ok diagnostics s ↔
      s.diagnostics.lookup uri = some diagnostics := by
  constructor
  · exact fun answer => ((spec_diagnosticsFor context s uri).ok .refl answer).2
  · intro cached
    have read : (get : ServerM Server) s = .ok s s := rfl
    simp only [diagnosticsFor, bind, EStateM.bind, read, cached]
    rfl

theorem patch_of_heard (codec : UriCodec) {message diagnostics : Value} (awaiting : Option Text)
    {uri published : Text}
    (publication : publishedDiagnostics message = some (published, diagnostics))
    (named : diagnosticUriMatches codec uri published = true) :
    (Exchange.received message awaiting).patch codec uri =
      if published = uri ∨ awaiting = some uri then some (some diagnostics) else none := by
  simp [Exchange.patch, publication, named]

/-- The latest publication about a document since it was synchronized is what its
diagnostics are answered with, without waiting, where it was taken for the document
and no pull report was stored after it; and only there, unless another exchange
brought equal diagnostics. -/
theorem diagnostics_found {worker : WorkerRuntime}
    {answered : List (Command contentHash × Except WorkerError WorkerResponse)}
    (run : Runs.Run (WorkerRuntime.Step context) .new answered worker) {server : Server}
    (kept : worker.server = .ready server) {document : DocumentSnapshot contentHash}
    {synchronized : SynchronizedDocument} {s : Server}
    (sync : synchronize context document server = .ok synchronized s)
    {before after : List Exchange} {message diagnostics : Value} {awaiting : Option Text}
    {published : Text}
    (history : s.transport.history = before ++ .received message awaiting :: after)
    (publication : publishedDiagnostics message = some (published, diagnostics))
    (named : diagnosticUriMatches context.codec document.uri published = true)
    (latest : ∀ later ∈ after, ¬later.Synchronizes document.uri ∧
      ¬later.Names context.codec document.uri) :
    ((published = document.uri ∨ awaiting = some document.uri) →
      (∀ later ∈ after, ¬later.Reports document.uri) →
        diagnosticsFor context document.uri s = .ok diagnostics s) ∧
    ((∀ other ∈ before ++ after,
        other.patch context.codec document.uri ≠ some (some diagnostics)) →
      diagnosticsFor context document.uri s = .ok diagnostics s →
        (published = document.uri ∨ awaiting = some document.uri) ∧
          ∀ later ∈ after, ¬later.Reports document.uri) := by
  have life : Life context contentHash s :=
    .executed document (WorkerRuntime.alive_of_run run server kept)
      ((spec_synchronize context server document).ok rfl sync).1
  have patched := patch_of_heard context.codec awaiting publication named
  rw [diagnosticsFor_iff, shows_of_life life, history]
  constructor
  · intro heard unreported
    rw [if_pos heard] at patched
    exact shown_of_last patched fun later mem =>
      Exchange.patch_eq_none (latest later mem).1 (latest later mem).2 (unreported later mem)
  · intro fresh cached
    have undecided : ∀ later ∈ after, later.patch context.codec document.uri = none := by
      rcases shown_append_cases context.codec (before ++ [.received message awaiting])
        after document.uri with undecided | ⟨later, mem, decided⟩
      · exact undecided
      · rw [List.append_assoc, List.singleton_append, cached] at decided
        exact absurd decided (fresh later (List.mem_append_right _ mem))
    refine ⟨?_, fun later mem reports => ?_⟩
    · by_contra unheard
      rw [if_neg unheard] at patched
      have silent : ∀ later ∈ .received message awaiting :: after,
          later.patch context.codec document.uri = none := by
        intro later mem
        rcases List.mem_cons.mp mem with rfl | mem
        · exact patched
        · exact undecided later mem
      rw [shown_append_of_undecided before silent] at cached
      obtain ⟨earlier, exchange, rest, rfl, decided, -⟩ := shown_cases cached
      exact fresh exchange (by simp) decided
    · have decided := Exchange.patch_of_reports context.codec reports
      rw [undecided later mem] at decided
      cases decided

def diagnosedServer : Server := diagnosedOnce.server.server?.getD (.fresh publishingProcess)

def resynced (server : Server) : Server :=
  Attempts.left (synchronize .plain (DocumentSnapshot.new id uriA "rust".toList "x".toList) server)

theorem diagnostics_found_once :
    diagnosticsFor .plain uriA (resynced diagnosedServer) =
      .ok (.list [.str "early"]) (resynced diagnosedServer) := by
  obtain ⟨answered, run⟩ := WorkerRuntime.run_runAll .plain [diagnosing "x"] .new
  have kept : diagnosedOnce.server = .ready diagnosedServer :=
    ServerState.eq_ready (by decide +kernel)
  have sync : Attempts.outcome (synchronize .plain
      (DocumentSnapshot.new id uriA "rust".toList "x".toList) diagnosedServer) =
        .ok ⟨"x".toList, 1⟩ := by
    decide +kernel
  have history : (resynced diagnosedServer).transport.history =
      (resynced diagnosedServer).transport.history.dropLast ++
        .received (publish uriA 1 "early") (some uriA) :: [] := by
    decide +kernel
  have publication : publishedDiagnostics (publish uriA 1 "early") =
      some (uriA, .list [.str "early"]) := by
    decide +kernel
  have named : diagnosticUriMatches RequestContext.plain.codec uriA uriA = true := by
    decide +kernel
  exact (diagnostics_found run kept (Attempts.eq_ok_of_outcome sync) history publication named
    nofun).1 (.inl rfl) nofun

def uriALocal : Text := "file://localhost/w/a".toList

def aliasingProcess : Process := .answering 4 [
  respond 1 (advertise [("definitionProvider", .bool true), ("textDocumentSync", .number 1)]),
  publish uriALocal 1 "found",
  respond 2 .null]

def locating : Command id where
  operation := .definition ⟨1, 0⟩
  document := .new id uriA "rust".toList "x".toList
  io := .starting aliasingProcess

def locatedServer : Server :=
  (WorkerRuntime.new.run .plain locating).2.server.server?.getD (.fresh aliasingProcess)

/-- A publication under another spelling, taken while an answer is awaited, is not
found under the document's own. -/
theorem diagnostics_under_alias :
    diagnosticUriMatches RequestContext.plain.codec uriA uriALocal = true ∧
    publishedDiagnostics (publish uriALocal 1 "found") =
      some (uriALocal, .list [.str "found"]) ∧
    (resynced locatedServer).transport.history.drop 5 =
      [.received (publish uriALocal 1 "found") none, .received (respond 2 .null) none] ∧
    Attempts.outcome (diagnosticsFor .plain uriA (resynced locatedServer)) =
      .error (.timedOut "rust" none) := by
  decide +kernel

end CodeWeave
