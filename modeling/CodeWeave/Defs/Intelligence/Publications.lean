import CodeWeave.Defs.Intelligence.Mirror
import CodeWeave.Lib.Overwrite

namespace CodeWeave

open Overwrite

def Exchange.patch (codec : UriCodec) : Exchange → Patch Text (Option Value)
  | .sent message, uri =>
    match noticeOf message with
    | some (told, _) => if told = uri then some none else none
    | none => none
  | .received message awaiting, uri =>
    match publishedDiagnostics message with
    | some (published, diagnostics) =>
      if published = uri ∨ awaiting = some uri ∧ diagnosticUriMatches codec uri published then
        some (some diagnostics)
      else none
    | none => none
  | .reported document diagnostics, uri =>
    if document = uri then some (some diagnostics) else none

def shown (codec : UriCodec) (history : List Exchange) : Text → Option Value :=
  applyAll (history.map (Exchange.patch codec)) fun _ => none

theorem shown_concat (codec : UriCodec) (history : List Exchange) (exchange : Exchange) :
    shown codec (history ++ [exchange]) = (exchange.patch codec).apply (shown codec history) := by
  rw [shown, List.map_append, applyAll_append]
  rfl

def lastVersion (uri : Text) (history : List Exchange) : Option Int :=
  (noticesFor uri (history.filterMap Exchange.notice)).getLast?.map Notice.version

def publishedVersion (message : Value) : Option Int :=
  ((message.get "params").bind (Value.get "version")).bind Value.asInt

theorem planSync_notification {contentHash : Text → ContentHash}
    {document : DocumentSnapshot contentHash} {documents : Documents} {notification : Value}
    (sent : (planSync document documents).1.notification = some notification) :
    (planSync document documents).1.changed = true ∧
      ∃ notice, noticeOf notification = some (document.uri, notice) := by
  unfold planSync at sent ⊢
  cases known : documents.lookup document.uri with
  | none =>
    simp only [known, Option.some.injEq] at sent
    exact ⟨rfl, _, sent ▸ noticeOf_didOpen document⟩
  | some state =>
    by_cases changed : state.hash ≠ document.hash
    · simp only [known, if_pos changed, Option.some.injEq] at sent
      exact ⟨by simp only [if_pos changed], _, sent ▸ noticeOf_didChange document _⟩
    · simp only [known, if_neg changed] at sent
      cases sent

namespace Server

variable {context : RequestContext} {contentHash : Text → ContentHash} {codec : UriCodec}
  {s t : Server}

/-- The cache is what the exchanges so far make of it. -/
def Shows (codec : UriCodec) (server : Server) : Prop :=
  ∀ uri, server.diagnostics.lookup uri = shown codec server.transport.history uri

theorem Shows.record (shows : s.Shows codec) {exchange : Exchange}
    (silent : ∀ uri, exchange.patch codec uri = none) : (s.record exchange).Shows codec := by
  intro uri
  change s.diagnostics.lookup uri = shown codec (s.transport.history ++ [exchange]) uri
  rw [shown_concat, Patch.apply_of_none (silent uri)]
  exact shows uri

theorem Shows.decide (shows : s.Shows codec) {exchange : Exchange} (diagnostics : Value)
    (history : t.transport.history = s.transport.history ++ [exchange])
    (decided : ∀ uri, exchange.patch codec uri = some (some diagnostics) ∧
        t.diagnostics.lookup uri = some diagnostics ∨
      exchange.patch codec uri = none ∧ t.diagnostics.lookup uri = s.diagnostics.lookup uri) :
    t.Shows codec := by
  intro uri
  rw [history, shown_concat]
  rcases decided uri with ⟨patch, cached⟩ | ⟨patch, cached⟩
  · rw [Patch.apply_of_some patch, cached]
  · rw [Patch.apply_of_none patch, cached]
    exact shows uri

theorem Shows.turn (shows : s.Shows context.codec) (turn : Turn context s t) :
    t.Shows context.codec := by
  cases turn with
  | idle _ diagnostics history =>
    intro uri
    rw [diagnostics, history]
    exact shows uri
  | sent plain => exact shows.record fun uri => by simp [Exchange.patch, plain]
  | heard awaiting silent => exact shows.record fun uri => by simp [Exchange.patch, silent]
  | published publication =>
    next published diagnostics =>
    refine shows.decide diagnostics rfl fun uri => ?_
    by_cases same : published = uri
    · subst same
      exact .inl ⟨by simp [Exchange.patch, publication], AList.lookup_insert _⟩
    · exact .inr ⟨by simp [Exchange.patch, publication, same], AList.lookup_insert_ne (Ne.symm same)⟩
  | passed publication misses =>
    next awaited published diagnostics =>
    refine shows.decide diagnostics rfl fun uri => ?_
    by_cases same : published = uri
    · subst same
      exact .inl ⟨by simp [Exchange.patch, publication], AList.lookup_insert _⟩
    · refine .inr ⟨?_, AList.lookup_insert_ne (Ne.symm same)⟩
      simp only [Exchange.patch, publication, same, false_or, Option.some.injEq]
      rw [if_neg]
      rintro ⟨rfl, named⟩
      rw [misses] at named
      cases named
  | awaited publication named =>
    next awaited published diagnostics =>
    refine shows.decide diagnostics rfl fun uri => ?_
    by_cases own : uri = awaited
    · subst own
      exact .inl ⟨by simp [Exchange.patch, publication, named], AList.lookup_insert _⟩
    · by_cases same : published = uri
      · subst same
        refine .inl ⟨by simp [Exchange.patch, publication], ?_⟩
        exact (AList.lookup_insert_ne own).trans (AList.lookup_insert _)
      · refine .inr ⟨by simp [Exchange.patch, publication, same, Ne.symm own], ?_⟩
        exact (AList.lookup_insert_ne own).trans (AList.lookup_insert_ne (Ne.symm same))
  | reported document diagnostics =>
    refine shows.decide diagnostics rfl fun uri => ?_
    by_cases same : document = uri
    · subst same
      exact .inl ⟨by simp [Exchange.patch], AList.lookup_insert _⟩
    · exact .inr ⟨by simp [Exchange.patch, same], AList.lookup_insert_ne (Ne.symm same)⟩

theorem Shows.synced (shows : s.Shows codec) (document : DocumentSnapshot contentHash) :
    (s.synced document).Shows codec := by
  have sync := @planSync_notification contentHash document s.documents
  unfold Server.synced
  generalize planSync document s.documents = plan at sync ⊢
  obtain ⟨⟨notification, synchronized, changed⟩, documents⟩ := plan
  cases notification with
  | none => exact shows
  | some notification =>
    obtain ⟨rfl, notice, told⟩ := sync rfl
    intro uri
    change (s.diagnostics.erase document.uri).lookup uri =
      shown codec (s.transport.history ++ [.sent notification]) uri
    rw [shown_concat]
    by_cases same : uri = document.uri
    · subst same
      rw [AList.lookup_erase, Patch.apply_of_some (v := none)]
      simp [Exchange.patch, told]
    · rw [AList.lookup_erase_ne same, Patch.apply_of_none, shows uri]
      simp [Exchange.patch, told, Ne.symm same]

theorem shows_of_life (life : Life context contentHash s) : s.Shows context.codec :=
  life.invariant (fun _ _ => rfl) (fun _ _ shows turn => shows.turn turn)
    fun _ document shows => shows.synced document

end Server

end CodeWeave
