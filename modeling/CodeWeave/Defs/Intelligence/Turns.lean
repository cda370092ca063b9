import CodeWeave.Defs.Intelligence.Server
import CodeWeave.Lib.Attempts
import Mathlib.Logic.Relation

/-! What a server goes through while a command runs, one message at a time. Each
function of the server is a sequence of such turns. -/

namespace CodeWeave

structure Notice where
  opening : Bool
  version : Int
  text : Text
  deriving DecidableEq

def openedNotice (params : Value) : Option (Text × Notice) := do
  let document ← params.get "textDocument"
  let uri ← (document.get "uri").bind Value.asStr
  let version ← (document.get "version").bind Value.asInt
  let text ← (document.get "text").bind Value.asStr
  some (uri, ⟨true, version, text⟩)

def changedNotice (params : Value) : Option (Text × Notice) := do
  let document ← params.get "textDocument"
  let uri ← (document.get "uri").bind Value.asStr
  let version ← (document.get "version").bind Value.asInt
  let changes ← (params.get "contentChanges").bind Value.asArray
  let last ← changes.getLast?
  let text ← (last.get "text").bind Value.asStr
  some (uri, ⟨false, version, text⟩)

def noticeOf (message : Value) : Option (Text × Notice) :=
  match (message.get "method").bind Value.asStr with
  | some method =>
    if method = "textDocument/didOpen".toList then (message.get "params").bind openedNotice
    else if method = "textDocument/didChange".toList then
      (message.get "params").bind changedNotice
    else none
  | none => none

variable {contentHash : Text → ContentHash} (document : DocumentSnapshot contentHash)

@[simp] theorem noticeOf_didOpen :
    noticeOf document.didOpen = some (document.uri, ⟨true, 1, document.content⟩) := rfl

@[simp] theorem noticeOf_didChange (version : Int) :
    noticeOf (document.didChange version) =
      some (document.uri, ⟨false, version, document.content⟩) := rfl

theorem noticeOf_requestMessage (id : Nat) {method : String} (params : Value)
    (opens : method ≠ "textDocument/didOpen") (changes : method ≠ "textDocument/didChange") :
    noticeOf (Server.requestMessage id method params) = none := by
  have named : ((Server.requestMessage id method params).get "method").bind Value.asStr =
      some method.toList := rfl
  simp only [noticeOf, named]
  rw [if_neg fun same => opens (String.toList_inj.mp same),
    if_neg fun same => changes (String.toList_inj.mp same)]

theorem noticeOf_answer (id result : Value) :
    noticeOf (json [("jsonrpc", .str "2.0"), ("id", id), ("result", result)]) = none := rfl

namespace Server

def synced (server : Server) : Server :=
  let (sync, documents) := planSync document server.documents
  match sync.notification with
  | none => { server with documents := documents }
  | some notification =>
    let told := { server with documents := documents }.record (.sent notification)
    if sync.changed then { told with diagnostics := told.diagnostics.erase document.uri } else told

variable (context : RequestContext)

inductive Turn : Server → Server → Prop
  | idle {s t : Server} :
      t.documents = s.documents → t.diagnostics = s.diagnostics →
      t.transport.history = s.transport.history → Turn s t
  | sent (s : Server) {message : Value} :
      noticeOf message = none → Turn s (s.record (.sent message))
  | heard (s : Server) {message : Value} (awaiting : Option Text) :
      publishedDiagnostics message = none → Turn s (s.record (.received message awaiting))
  | published (s : Server) {message : Value} {uri : Text} {diagnostics : Value} :
      publishedDiagnostics message = some (uri, diagnostics) →
      Turn s ((s.record (.received message none)).cache uri diagnostics)
  | passed (s : Server) {message : Value} {awaited uri : Text} {diagnostics : Value} :
      publishedDiagnostics message = some (uri, diagnostics) →
      diagnosticUriMatches context.codec awaited uri = false →
      Turn s ((s.record (.received message (some awaited))).cache uri diagnostics)
  | awaited (s : Server) {message : Value} {awaited uri : Text} {diagnostics : Value} :
      publishedDiagnostics message = some (uri, diagnostics) →
      diagnosticUriMatches context.codec awaited uri = true →
      Turn s (((s.record (.received message (some awaited))).cache uri diagnostics).cache
        awaited diagnostics)
  | reported (s : Server) (uri : Text) (diagnostics : Value) :
      Turn s ((s.record (.reported uri diagnostics)).cache uri diagnostics)

abbrev Talks : Server → Server → Prop := Relation.ReflTransGen (Turn context)

open Attempts

variable {context} {s : Server}

section Keeps

variable (s context)

theorem keeps_notify {message : Value} (plain : noticeOf message = none) :
    Keeps (Talks context s) (notify context message) := by
  unfold notify
  apply Keeps.bind Keeps.get
  intro now
  cases now.transport.sends with
  | nil => exact Keeps.throw
  | cons sending rest =>
    apply Keeps.bind (Keeps.modify fun u talks => talks.tail (.idle rfl rfl rfl))
    intro _
    cases sending with
    | error failure => exact Keeps.throw
    | ok _ => exact Keeps.modify fun u talks => talks.tail (.sent u plain)

theorem spec_receive (awaiting : Option Text) (wait : List Slice) (rest : List (List Slice)) :
    Spec (Talks context s) (receive context awaiting wait rest)
      (fun message t => ∃ u, Talks context s u ∧ t = u.record (.received message awaiting))
      (fun _ => Talks context s) := by
  unfold receive
  apply Spec.bind (Keeps.modify fun u talks => talks.tail (.idle rfl rfl rfl))
  intro _
  apply Spec.bind Keeps.ofExcept
  intro message u talks
  exact ⟨u, talks, rfl⟩

theorem keeps_answerServerRequest (message : Value) :
    Keeps (Talks context s) (answerServerRequest context message) := by
  unfold answerServerRequest
  split
  · exact keeps_notify context s (noticeOf_answer _ _)
  · exact Keeps.pure

theorem spec_handleMessage (message : Value) :
    Spec (fun t => ∃ u, Talks context s u ∧ t = u.record (.received message none))
      (handleMessage context message) (fun _ => Talks context s) (fun _ => Talks context s) := by
  rintro t ⟨u, talks, rfl⟩
  unfold handleMessage
  cases published : publishedDiagnostics message with
  | none =>
    exact keeps_answerServerRequest context s message _ (talks.tail (.heard u none published))
  | some publication => exact talks.tail (.published u published)

theorem published_of_isResponse {id : Nat} {message : Value} (response : isResponse id message) :
    publishedDiagnostics message = none := by
  simp only [isResponse, Bool.and_eq_true, Option.isNone_iff_eq_none] at response
  rw [publishedDiagnostics, response.2]
  rfl

theorem keeps_awaitResponse (id : Nat) (waits : List (List Slice)) :
    Keeps (Talks context s) (awaitResponse context id waits) := by
  induction waits with
  | nil => exact Keeps.throw
  | cons wait rest ih =>
    apply Spec.bind (spec_receive context s none wait rest)
    intro message
    split
    · next response =>
      rintro t ⟨u, talks, rfl⟩
      exact Keeps.ofExcept _ (talks.tail (.heard u none (published_of_isResponse response)))
    · exact Spec.bind (spec_handleMessage context s message) fun _ => ih

theorem keeps_request {method : String} (params : Value)
    (opens : method ≠ "textDocument/didOpen") (changes : method ≠ "textDocument/didChange") :
    Keeps (Talks context s) (request context method params) := by
  unfold request
  apply Keeps.bind Keeps.get
  intro now
  apply Keeps.bind (Keeps.modify fun u talks => talks.tail (.idle rfl rfl rfl))
  intro _
  apply Keeps.bind (keeps_notify context s (noticeOf_requestMessage _ params opens changes))
  intro _
  apply Keeps.bind Keeps.get
  intro later
  exact keeps_awaitResponse context s _ _

theorem spec_awaitDiagnostics (uri : Text) (waits : List (List Slice)) :
    Spec (Talks context s) (awaitDiagnostics context uri waits)
      (fun diagnostics t => Talks context s t ∧ t.diagnostics.lookup uri = some diagnostics)
      (fun _ => Talks context s) := by
  induction waits with
  | nil => exact fun _ talks => talks
  | cons wait rest ih =>
    apply Spec.bind (spec_receive context s (some uri) wait rest)
    intro message
    split
    · next published diagnostics publication =>
      rintro t ⟨u, talks, rfl⟩
      cases matches' : diagnosticUriMatches context.codec uri published with
      | true =>
        exact ⟨talks.tail (.awaited u publication matches'), AList.lookup_insert _⟩
      | false => exact ih _ (talks.tail (.passed u publication matches'))
    · next silent =>
      rintro t ⟨u, talks, rfl⟩
      have heard := talks.tail (.heard u (some uri) silent)
      exact Spec.bind (keeps_answerServerRequest context s message) (fun _ => ih) _ heard

theorem spec_diagnosticsFor (uri : Text) :
    Spec (Talks context s) (diagnosticsFor context uri)
      (fun diagnostics t => Talks context s t ∧ t.diagnostics.lookup uri = some diagnostics)
      (fun _ => Talks context s) := by
  apply Spec.bind Spec.get
  intro server
  cases cached : server.diagnostics.lookup uri with
  | some diagnostics =>
    rintro t ⟨talks, rfl⟩
    exact ⟨talks, cached⟩
  | none =>
    rintro t ⟨talks, -⟩
    revert t
    split
    · apply Spec.bind (keeps_request context s _ (by decide) (by decide))
      intro report
      apply Spec.bind Keeps.ofExcept
      intro diagnostics
      exact fun t talks => ⟨talks.tail (.reported t uri diagnostics), AList.lookup_insert _⟩
    · exact spec_awaitDiagnostics context s uri _

theorem method_ne_didOpen (operation : WorkerOperation) :
    operation.method ≠ "textDocument/didOpen" := by
  cases operation <;> simp [WorkerOperation.method]

theorem method_ne_didChange (operation : WorkerOperation) :
    operation.method ≠ "textDocument/didChange" := by
  cases operation <;> simp [WorkerOperation.method]

theorem spec_answer {contentHash : Text → ContentHash} (document : DocumentSnapshot contentHash)
    (encoding : PositionEncoding) (operation : WorkerOperation) :
    Spec (Talks context s) (answer context document encoding operation)
      (fun result t => Talks context s t ∧
        (operation = .diagnostics → t.diagnostics.lookup document.uri = some result))
      (fun _ => Talks context s) := by
  have asked (params : Except WorkerError Value) :
      Keeps (Talks context s) (do
        request context operation.method (← MonadExcept.ofExcept params)) :=
    Keeps.bind Keeps.ofExcept fun params => keeps_request context s params
      (method_ne_didOpen operation) (method_ne_didChange operation)
  cases operation with
  | diagnostics =>
    exact (spec_diagnosticsFor context s document.uri).mono (fun _ talks => talks)
      (fun _ _ ends => ⟨ends.1, fun _ => ends.2⟩) fun _ _ talks => talks
  | definition position =>
    exact (asked _).mono (fun _ talks => talks)
      (fun _ _ talks => ⟨talks, nofun⟩) fun _ _ talks => talks
  | references position =>
    exact (asked _).mono (fun _ talks => talks)
      (fun _ _ talks => ⟨talks, nofun⟩) fun _ _ talks => talks
  | rename position newName =>
    exact (asked _).mono (fun _ talks => talks)
      (fun _ _ talks => ⟨talks, nofun⟩) fun _ _ talks => talks

end Keeps

section Execute

variable (s context)

theorem spec_notify (message : Value) :
    Spec (fun t => t = s) (notify context message)
      (fun _ t => ∃ rest, t = (s.withTransport fun transport =>
        { transport with sends := rest }).record (.sent message))
      (fun error _ => error.restartable = true) := by
  unfold notify
  apply Spec.bind Spec.get
  intro now
  cases now.transport.sends with
  | nil => exact fun _ _ => WorkerError.restartable_fromTransport _ _ _
  | cons sending rest =>
    rintro t ⟨rfl, -⟩
    cases sending with
    | error failure => exact WorkerError.restartable_fromTransport _ _ _
    | ok _ => exact ⟨rest, rfl⟩

variable {contentHash : Text → ContentHash} (document : DocumentSnapshot contentHash)

theorem spec_synchronize :
    Spec (fun t => t = s) (synchronize context document)
      (fun synchronized t => Talks context (s.synced document) t ∧
        synchronized = (planSync document s.documents).1.synchronized)
      (fun error _ => error.restartable = true) := by
  unfold synchronize
  apply Spec.bind Spec.get
  rintro now t ⟨rfl, rfl⟩
  unfold synced
  rcases plan : planSync document t.documents with ⟨⟨notification, synchronized, changed⟩, documents⟩
  cases notification with
  | none => exact ⟨.refl, rfl⟩
  | some notification =>
    apply Spec.bind (spec_notify context { t with documents := documents } notification) ?_ _ rfl
    rintro _ u ⟨rest, rfl⟩
    cases changed with
    | false => exact ⟨.single (.idle rfl rfl rfl), rfl⟩
    | true => exact ⟨.single (.idle rfl rfl rfl), rfl⟩

theorem spec_execute (operation : WorkerOperation) :
    Spec (fun t => t = s) (execute context document operation)
      (fun response t => Talks context (s.synced document) t ∧
        response.synchronized = (planSync document s.documents).1.synchronized ∧
        (operation = .diagnostics → t.diagnostics.lookup document.uri = some response.result))
      (fun error t => error.restartable = true ∨ t = s ∨ Talks context (s.synced document) t) := by
  unfold execute
  apply Spec.bind Spec.get
  intro now
  dsimp only
  split
  · exact fun t start => .inr (.inl start.1)
  · split
    · exact fun t start => .inr (.inl start.1)
    · apply Spec.bind ((spec_synchronize context s document).mono (fun _ start => start.1)
        (fun _ _ ends => ends) fun _ _ restarts => .inl restarts)
      rintro synchronized t ⟨talks, planned⟩
      apply Spec.bind ((spec_answer context (s.synced document) document _ operation).mono
        (fun _ start => start) (fun _ _ ends => ends) fun _ _ talks => .inr (.inr talks)) ?_ t talks
      exact fun result u ends => ⟨ends.1, planned, ends.2⟩

end Execute

theorem keeps_initializeServer (context : RequestContext) (s : Server) (elapsedMs : Nat) :
    Keeps (Talks context s) (initializeServer context elapsedMs) := by
  apply Keeps.bind (keeps_request context s _ (by decide) (by decide))
  intro result
  cases parseInitializeResult result elapsedMs with
  | error error => exact fun _ talks => talks
  | ok capabilities =>
    exact Keeps.bind (Keeps.modify fun u talks => talks.tail (.idle rfl rfl rfl)) fun _ =>
      keeps_notify context s rfl

/-- What a process can have gone through while it is kept. -/
inductive Life (context : RequestContext) (contentHash : Text → ContentHash) : Server → Prop
  | started {process : Process} {s : Server} : Talks context (fresh process) s → Life context contentHash s
  | executed {s t : Server} (document : DocumentSnapshot contentHash) :
      Life context contentHash s → Talks context (s.synced document) t → Life context contentHash t

theorem Life.execute_ok {contentHash : Text → ContentHash} {document : DocumentSnapshot contentHash}
    {operation : WorkerOperation} {s t : Server} {response : WorkerResponse}
    (life : Life context contentHash s)
    (ok : execute context document operation s = .ok response t) : Life context contentHash t :=
  .executed document life ((spec_execute context s document operation).ok rfl ok).1

theorem Life.execute_error {contentHash : Text → ContentHash}
    {document : DocumentSnapshot contentHash} {operation : WorkerOperation} {s t : Server}
    {error : WorkerError} (life : Life context contentHash s)
    (failed : execute context document operation s = .error error t)
    (kept : error.restartable = false) : Life context contentHash t := by
  rcases (spec_execute context s document operation).error rfl failed with restarts | rfl | talks
  · rw [restarts] at kept
    cases kept
  · exact life
  · exact .executed document life talks

theorem Life.invariant {contentHash : Text → ContentHash} {Inv : Server → Prop}
    (start : ∀ process, Inv (fresh process))
    (turn : ∀ s t, Inv s → Turn context s t → Inv t)
    (sync : ∀ s (document : DocumentSnapshot contentHash), Inv s → Inv (s.synced document))
    {s : Server} (life : Life context contentHash s) : Inv s := by
  have talk {s t : Server} (inv : Inv s) (talks : Talks context s t) : Inv t := by
    induction talks with
    | refl => exact inv
    | tail _ last ih => exact turn _ _ ih last
  induction life with
  | started talks => exact talk (start _) talks
  | executed document _ talks ih => exact talk (sync _ document ih) talks

end Server

end CodeWeave
