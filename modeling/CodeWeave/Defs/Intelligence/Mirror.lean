import CodeWeave.Defs.Intelligence.WorkerLaws

namespace CodeWeave

structure OpenDocument where
  version : Int
  text : Text
  deriving DecidableEq

/-- The documents a language server holds: a `didOpen` opens one, a full-text
`didChange` replaces the text of one that is open. -/
abbrev ModelServer := Text → Option OpenDocument

namespace ModelServer

def take (server : ModelServer) (uri : Text) (notice : Notice) : ModelServer := fun other =>
  if other = uri ∧ (notice.opening ∨ (server uri).isSome) then some ⟨notice.version, notice.text⟩
  else server other

def replay (told : List (Text × Notice)) : ModelServer :=
  told.foldl (fun server (uri, notice) => server.take uri notice) fun _ => none

end ModelServer

def Exchange.notice : Exchange → Option (Text × Notice)
  | .sent message => noticeOf message
  | _ => none

def Server.told (server : Server) : List (Text × Notice) :=
  server.transport.history.filterMap Exchange.notice

def noticesFor (uri : Text) (told : List (Text × Notice)) : List Notice :=
  (told.filter fun notice => notice.1 = uri).map Prod.snd

/-- A document is opened exactly once, before any change, and each notice has a
greater version than the ones before it. -/
structure InOrder (notices : List Notice) : Prop where
  opensFirst : ∀ notice rest, notices = notice :: rest →
    notice.opening = true ∧ ∀ later ∈ rest, later.opening = false
  increasing : notices.Pairwise fun earlier later => earlier.version < later.version

/-- The table holds, for every URI, the hash and the version of the text a server
has that replays the notifications sent to it. -/
structure Mirrors (contentHash : Text → ContentHash) (server : Server) : Prop where
  agrees : ∀ uri, server.documents.lookup uri =
    (ModelServer.replay server.told uri).map fun opened =>
      ⟨contentHash opened.text, opened.version⟩
  inOrder : ∀ uri, InOrder (noticesFor uri server.told)

namespace ModelServer

theorem replay_concat (told : List (Text × Notice)) (uri : Text) (notice : Notice) :
    replay (told ++ [(uri, notice)]) = (replay told).take uri notice := by
  simp [replay, List.foldl_append]

end ModelServer

theorem noticesFor_concat_self (uri : Text) (told : List (Text × Notice)) (notice : Notice) :
    noticesFor uri (told ++ [(uri, notice)]) = noticesFor uri told ++ [notice] := by
  simp [noticesFor]

theorem noticesFor_concat_of_ne {uri other : Text} (ne : other ≠ uri)
    (told : List (Text × Notice)) (notice : Notice) :
    noticesFor other (told ++ [(uri, notice)]) = noticesFor other told := by
  simp [noticesFor, ne.symm]

theorem InOrder.init {notices : List Notice} {last : Notice} (h : InOrder (notices ++ [last])) :
    InOrder notices where
  opensFirst notice rest eq := by
    obtain ⟨opening, changes⟩ := h.opensFirst notice (rest ++ [last]) (by rw [eq, List.cons_append])
    exact ⟨opening, fun later mem => changes later (List.mem_append_left _ mem)⟩
  increasing := (List.pairwise_append.mp h.increasing).1

theorem InOrder.first {notice : Notice} (opening : notice.opening = true) : InOrder [notice] where
  opensFirst first rest eq := by
    cases eq
    exact ⟨opening, nofun⟩
  increasing := List.pairwise_singleton _ _

theorem InOrder.next {notices : List Notice} {last next : Notice} (h : InOrder notices)
    (latest : notices.getLast? = some last) (change : next.opening = false)
    (newer : last.version < next.version) : InOrder (notices ++ [next]) where
  opensFirst first rest eq := by
    cases notices with
    | nil => cases latest
    | cons notice others =>
      cases eq
      obtain ⟨opening, changes⟩ := h.opensFirst _ _ rfl
      refine ⟨opening, fun later mem => ?_⟩
      rcases List.mem_append.mp mem with mem | mem
      · exact changes later mem
      · rw [List.mem_singleton.mp mem, change]
  increasing := by
    refine List.pairwise_append.mpr ⟨h.increasing, List.pairwise_singleton _ _, ?_⟩
    intro earlier mem later single
    rw [List.mem_singleton.mp single]
    obtain ⟨others, rfl⟩ := List.getLast?_eq_some_iff.mp latest
    rcases List.mem_append.mp mem with mem | mem
    · have below := (List.pairwise_append.mp h.increasing).2.2 earlier mem last (by simp)
      omega
    · rw [List.mem_singleton.mp mem]
      exact newer

theorem replay_of_inOrder {uri : Text} {told : List (Text × Notice)}
    (inOrder : InOrder (noticesFor uri told)) :
    ModelServer.replay told uri =
      (noticesFor uri told).getLast?.map fun notice => ⟨notice.version, notice.text⟩ := by
  induction told using List.reverseRecOn with
  | nil => rfl
  | append_singleton told last ih =>
    obtain ⟨other, notice⟩ := last
    rw [ModelServer.replay_concat]
    by_cases same : uri = other
    · subst same
      rw [noticesFor_concat_self] at inOrder ⊢
      rw [List.getLast?_concat]
      have before := ih inOrder.init
      cases earlier : noticesFor uri told with
      | nil =>
        rw [earlier, List.nil_append] at inOrder
        simp [ModelServer.take, (inOrder.opensFirst notice [] rfl).1]
      | cons first rest =>
        have isSome : (ModelServer.replay told uri).isSome := by
          rw [before, earlier, Option.isSome_map, List.getLast?_isSome]
          simp
        simp [ModelServer.take, isSome]
    · rw [noticesFor_concat_of_ne same] at inOrder ⊢
      rw [ModelServer.take, if_neg fun h => same h.1]
      exact ih inOrder

namespace Server

variable {context : RequestContext} {contentHash : Text → ContentHash} {s t : Server}

@[simp] theorem told_record (server : Server) (exchange : Exchange) :
    (server.record exchange).told = server.told ++ exchange.notice.toList := by
  simp only [told, record, withTransport, List.filterMap_append]
  cases eq : exchange.notice <;> simp [eq]

theorem Turn.keeps (turn : Turn context s t) : t.documents = s.documents ∧ t.told = s.told := by
  cases turn with
  | idle documents _ history => exact ⟨documents, congrArg (List.filterMap Exchange.notice) history⟩
  | sent plain => exact ⟨rfl, by rw [told_record, Exchange.notice, plain]; simp⟩
  | heard => exact ⟨rfl, by rw [told_record]; exact List.append_nil _⟩
  | published _ => exact ⟨rfl, (told_record s _).trans (List.append_nil _)⟩
  | passed _ => exact ⟨rfl, (told_record s _).trans (List.append_nil _)⟩
  | awaited _ => exact ⟨rfl, (told_record s _).trans (List.append_nil _)⟩
  | reported _ => exact ⟨rfl, (told_record s _).trans (List.append_nil _)⟩

variable (document : DocumentSnapshot contentHash)

theorem synced_cases (s : Server) :
    (s.documents.lookup document.uri = none ∧
      (s.synced document).documents = s.documents.insert document.uri ⟨document.hash, 1⟩ ∧
      (s.synced document).told =
        s.told ++ [(document.uri, ⟨true, 1, document.content⟩)]) ∨
    (∃ state, s.documents.lookup document.uri = some state ∧
      (s.synced document).documents =
        s.documents.insert document.uri ⟨document.hash, state.version + 1⟩ ∧
      (s.synced document).told =
        s.told ++ [(document.uri, ⟨false, state.version + 1, document.content⟩)]) ∨
    (∃ state, s.documents.lookup document.uri = some state ∧ state.hash = document.hash ∧
      (s.synced document).documents = s.documents.insert document.uri state ∧
      (s.synced document).told = s.told) := by
  unfold synced planSync
  cases known : s.documents.lookup document.uri with
  | none =>
    refine .inl ⟨rfl, rfl, ?_⟩
    change ({ s with documents := _ }.record (.sent document.didOpen)).told = _
    rw [told_record, Exchange.notice, noticeOf_didOpen]
    rfl
  | some state =>
    by_cases changed : state.hash ≠ document.hash
    · refine .inr (.inl ⟨state, rfl, ?_, ?_⟩)
      · simp only [changed, ne_eq, not_false_eq_true, if_true]
        rfl
      · simp only [changed, ne_eq, not_false_eq_true, if_true]
        change ({ s with documents := _ }.record (.sent (document.didChange _))).told = _
        rw [told_record, Exchange.notice, noticeOf_didChange]
        rfl
    · have same := of_not_not changed
      refine .inr (.inr ⟨state, rfl, same, ?_, ?_⟩)
      · simp only [changed, if_false]
        rw [← same]
      · simp only [changed, if_false]
        rfl

end Server

namespace Mirrors

variable {contentHash : Text → ContentHash} {context : RequestContext} {s t : Server}

theorem fresh (process : Process) : Mirrors contentHash (.fresh process) where
  agrees _ := rfl
  inOrder _ := ⟨nofun, .nil⟩

theorem turn (mirrors : Mirrors contentHash s) (turn : Server.Turn context s t) :
    Mirrors contentHash t := by
  obtain ⟨documents, told⟩ := turn.keeps
  exact ⟨documents ▸ told ▸ mirrors.agrees, told ▸ mirrors.inOrder⟩

theorem last (mirrors : Mirrors contentHash s) {uri : Text} {state : DocumentState}
    (known : s.documents.lookup uri = some state) :
    ∃ notice, (noticesFor uri s.told).getLast? = some notice ∧ notice.version = state.version := by
  have agrees := mirrors.agrees uri
  rw [known, replay_of_inOrder (mirrors.inOrder uri), Option.map_map] at agrees
  obtain ⟨notice, last, eq⟩ := Option.map_eq_some_iff.mp agrees.symm
  exact ⟨notice, last, congrArg DocumentState.version eq⟩

theorem notices_of_absent (mirrors : Mirrors contentHash s) {uri : Text}
    (unknown : s.documents.lookup uri = none) : noticesFor uri s.told = [] := by
  have agrees := mirrors.agrees uri
  rw [unknown, replay_of_inOrder (mirrors.inOrder uri), Option.map_map] at agrees
  exact List.getLast?_eq_none_iff.mp (Option.map_eq_none_iff.mp agrees.symm)

theorem notify (mirrors : Mirrors contentHash s) {uri : Text} {notice : Notice}
    (taken : notice.opening = true ∨ (ModelServer.replay s.told uri).isSome)
    (inOrder : InOrder (noticesFor uri s.told ++ [notice]))
    (documents : t.documents = s.documents.insert uri ⟨contentHash notice.text, notice.version⟩)
    (told : t.told = s.told ++ [(uri, notice)]) : Mirrors contentHash t where
  agrees other := by
    rw [documents, told, ModelServer.replay_concat, ModelServer.take]
    by_cases same : other = uri
    · subst same
      rw [AList.lookup_insert, if_pos ⟨rfl, taken⟩]
      rfl
    · rw [AList.lookup_insert_ne same, if_neg fun h => same h.1]
      exact mirrors.agrees other
  inOrder other := by
    rw [told]
    by_cases same : other = uri
    · subst same
      rw [noticesFor_concat_self]
      exact inOrder
    · rw [noticesFor_concat_of_ne same]
      exact mirrors.inOrder other

theorem synced (mirrors : Mirrors contentHash s) (document : DocumentSnapshot contentHash) :
    Mirrors contentHash (s.synced document) := by
  rcases s.synced_cases document with
    ⟨unknown, documents, told⟩ | ⟨state, known, documents, told⟩ | ⟨state, known, -, documents, told⟩
  · rw [document.hashed] at documents
    refine mirrors.notify (.inl rfl) ?_ documents told
    rw [mirrors.notices_of_absent unknown]
    exact .first rfl
  · rw [document.hashed] at documents
    obtain ⟨notice, last, version⟩ := mirrors.last known
    have opened : (ModelServer.replay s.told document.uri).isSome := by
      rw [replay_of_inOrder (mirrors.inOrder _), last]
      rfl
    refine mirrors.notify (.inr opened) ?_ documents told
    exact (mirrors.inOrder _).next last rfl (by rw [version]; exact Int.lt_succ _)
  · refine ⟨fun uri => ?_, told ▸ mirrors.inOrder⟩
    rw [documents, told, ← mirrors.agrees uri]
    by_cases same : uri = document.uri
    · rw [same, AList.lookup_insert, known]
    · rw [AList.lookup_insert_ne same]

end Mirrors

/-- As long as a process is kept, the worker's table is what replaying the
notifications sent to it gives, each document is opened once and then changed
with growing versions, and every response names the hash it was asked for. -/
theorem documents_mirrored {context : RequestContext} {contentHash : Text → ContentHash}
    {worker : WorkerRuntime}
    {answered : List (Command contentHash × Except WorkerError WorkerResponse)}
    (run : Runs.Run (WorkerRuntime.Step context) .new answered worker) :
    (∀ server, worker.server = .ready server → Mirrors contentHash server) ∧
      ∀ answer ∈ answered, ∀ response, answer.2 = .ok response →
        response.synchronized.hash = answer.1.document.hash := by
  refine ⟨fun server kept => ?_, ?_⟩
  · exact (WorkerRuntime.alive_of_run run server kept).invariant Mirrors.fresh
      (fun _ _ mirrors turn => mirrors.turn turn) fun _ document mirrors => mirrors.synced document
  · refine run.labels (WorkerRuntime.Alive context contentHash)
      (fun _ _ _ alive step => alive.step step) ?_ fun _ kept => by cases kept
    intro worker answer later alive step response ok
    obtain ⟨command, result⟩ := answer
    cases ok
    exact (alive.step_ok step).hash

def definingProcess : Process := .answering 6 [
  respond 1 (advertise [("definitionProvider", .bool true), ("textDocumentSync", .number 1)]),
  respond 2 .null,
  respond 3 .null]

def defining (content : String) : Command id where
  operation := .definition ⟨1, 0⟩
  document := .new id uriA "rust".toList content.toList
  io := .starting definingProcess

def definedTwice : WorkerRuntime := WorkerRuntime.new.runAll .plain [defining "x", defining "y"]

theorem documents_mirrored_definedTwice :
    (definedTwice.server.server?.map fun server => server.documents.lookup uriA) =
      some (some ⟨"y".toList, 2⟩) ∧
    ∀ server, definedTwice.server = .ready server → Mirrors id server := by
  obtain ⟨answered, run⟩ := WorkerRuntime.run_runAll .plain [defining "x", defining "y"] .new
  exact ⟨by decide +kernel, (documents_mirrored run).1⟩

end CodeWeave
