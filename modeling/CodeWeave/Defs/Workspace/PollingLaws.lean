import CodeWeave.Defs.Workspace.Polling

/-! A polling client as the reader of a feed: the clock is the published generation,
and the records of the writer that are not in the log yet are staged. -/

namespace CodeWeave

open Runs

namespace Polling

def feed (s : Polling) : Feed MutationRecord where
  clock := s.world.state.shared.generation
  log := s.ledger.events
  staged := s.writer.unappended
  cursor := s.since
  deliveries := s.responses.map ChangesResponse.mutations

def Ready (s : Polling) : Prop :=
  ∀ io plan progress records, s.writer = .written io plan progress records →
    ∀ record ∈ records, record.generation = s.world.state.shared.generation + 1

/-- When a response is stamped, the log gives the records that were read, no record of
a published generation is missing from it, and the limit has cut none off. -/
def Whole (s : Polling) : PollAction → Prop
  | .stamp =>
    match s.client with
    | .stamping limit records => s.ledger.recordsSince s.since none limit = records ∧
      s.writer.unappended = [] ∧
      (s.ledger.events.filter fun record => record.generation > s.since).length ≤ limit
    | _ => True
  | _ => True

instance (s : Polling) (action : PollAction) : Decidable (s.Whole action) := by
  cases action with
  | stamp =>
    simp only [Whole]
    split
    · exact inferInstance
    · exact inferInstance
  | _ => exact inferInstanceAs (Decidable True)

end Polling

theorem ChangeLedger.bounded_suffix (events : List MutationRecord) :
    ChangeLedger.bounded events <:+ events := List.drop_suffix _ _

theorem ChangeLedger.mem_recordsSince {ledger : ChangeLedger} {since limit : Nat}
    (room : (ledger.events.filter fun record => record.generation > since).length ≤ limit)
    (record : MutationRecord) : record ∈ ledger.recordsSince since none limit ↔
      record ∈ ledger.events ∧ since < record.generation := by
  have all : ledger.recordsSince since none limit =
      ledger.events.reverse.filter fun record => record.generation > since := by
    rw [recordsSince, List.take_of_length_le]
    · simp
    · simpa [List.filter_reverse] using room
  rw [all, List.mem_filter, List.mem_reverse, decide_eq_true_eq]

section

variable (ws : Workspace)

theorem compensate_keeps (io : CommitIo) (completed : List PlannedFile) (refreshIndex : Bool)
    (world : World) :
    (ws.compensate io completed refreshIndex world).2.state.shared.generation =
        world.state.shared.generation ∧
      (ws.compensate io completed refreshIndex world).2.state.ledger.events =
        world.state.ledger.events := by
  cases refreshIndex with
  | false =>
    obtain ⟨report, disk, markers, eq, -⟩ := ws.compensate_without_refresh io completed world
    rw [eq]
    exact ⟨rfl, rfl⟩
  | true =>
    by_cases nothing : completed = []
    · rw [Workspace.compensate, if_pos nothing]
      exact ⟨rfl, rfl⟩
    · obtain ⟨report, disk, markers, eq, -⟩ := ws.compensate_with_refresh io nothing world
      rw [eq]
      refine ⟨rfl, ?_⟩
      simp only
      split <;> rfl

theorem publishCommit_generation (io : CommitIo) (disk : Disk) (paths : List PathBuf)
    (shared : Reconciled) :
    (ws.publishCommit io disk paths shared).2.generation =
      if (ws.publishCommit io disk paths shared).1.isOk then shared.generation + 1
      else shared.generation := by
  rw [Workspace.publishCommit]
  rcases ws.refreshPaths disk io.faults (io.order.run paths) shared.index with ⟨refreshed, index⟩
  cases refreshed with
  | error error => rfl
  | ok changed => simp [Reconciled.recomputeSnapshot, Reconciled.bumpGeneration]

inductive ReconcileDates (shared : Reconciled) :
    AppResult (List Text × List MutationRecord) × Reconciled → Prop
  | failed {error : AppError} {later : Reconciled} (same : later.generation = shared.generation) :
      ReconcileDates shared (.error error, later)
  | quiet {changed : List Text} {later : Reconciled} (same : later.generation = shared.generation) :
      ReconcileDates shared (.ok (changed, []), later)
  | published {changed : List Text} {external : List MutationRecord} {later : Reconciled}
      (next : later.generation = shared.generation + 1)
      (dated : ∀ record ∈ external, record.generation = shared.generation + 1) :
      ReconcileDates shared (.ok (changed, external), later)

theorem publishReconcile_dates (io : ReconcileIo) (disk : Disk) (drain : PendingDrain)
    (shared : Reconciled) :
    ReconcileDates shared (ws.publishReconcile io disk drain shared) := by
  rw [Workspace.publishReconcile]
  rcases (if drain.paths = [] then ((.ok [] : AppResult (List Text)), shared.index)
    else ws.refreshPaths disk io.faults (io.order.run drain.paths) shared.index) with
    ⟨refreshed, index⟩
  cases refreshed with
  | error error => exact .failed rfl
  | ok changed =>
    have kept := Reconciled.consultStatus_generation { shared with index := index }
      (drain.gitEvent || changed ≠ []) io.status
    revert kept
    simp only
    generalize Reconciled.consultStatus { shared with index := index }
      (drain.gitEvent || changed ≠ []) io.status = consulted
    rcases consulted with ⟨repo, consulted⟩
    intro kept
    simp only at kept ⊢
    split
    · exact .quiet kept
    · have next : ∀ recomputed : Prop, [Decidable recomputed] →
          (if recomputed then consulted.bumpGeneration.recomputeSnapshot ws
            else consulted.bumpGeneration).generation = shared.generation + 1 := by
        intro recomputed _
        split
        · exact congrArg (· + 1) kept
        · exact congrArg (· + 1) kept
      refine .published (next _) fun record mem => ?_
      obtain ⟨path, -, rfl⟩ := List.mem_map.mp mem
      exact next _

theorem events_observe (disk : Disk) (ledger : ChangeLedger) (paths : List PathBuf) :
    (ledger.observe ws disk paths).events = ledger.events := by
  rw [ChangeLedger.observe]
  induction paths generalizing ledger with
  | nil => rfl
  | cons path rest ih =>
    rw [List.foldl_cons, ih]
    cases path with
    | outside text => rfl
    | below text =>
      simp only [ChangeLedger.observeOne]
      split <;> rfl

end

namespace Polling

open Workspace

abbrev Serves : Feed MutationRecord → Feed MutationRecord → Prop :=
  Feed.Steps MutationRecord.generation

section

variable {ws : Workspace} {s t : Polling}

theorem serves_of_same (generation : t.world.state.shared.generation =
      s.world.state.shared.generation)
    (events : t.world.state.ledger.events = s.world.state.ledger.events)
    (staged : t.writer.unappended = s.writer.unappended) (since : t.since = s.since)
    (responses : t.responses = s.responses) : Serves s.feed t.feed := by
  have same : t.feed = s.feed := by
    simp only [feed, ledger, generation, events, staged, since, responses]
  rw [same]

theorem ready_of_unwritten (unwritten : t.writer.isWritten = false) : t.Ready := by
  intro io plan progress records written
  rw [written] at unwritten
  cases unwritten

theorem ready_of_same (ready : s.Ready) (writer : t.writer = s.writer)
    (generation : t.world.state.shared.generation = s.world.state.shared.generation) :
    t.Ready := by
  intro io plan progress records written
  rw [writer] at written
  rw [generation]
  exact ready io plan progress records written

theorem serves_of_publish (free : s.writer.unappended = [])
    (generation : t.world.state.shared.generation = s.world.state.shared.generation + 1)
    (dated : ∀ record ∈ t.writer.unappended,
      record.generation = s.world.state.shared.generation + 1)
    (events : t.world.state.ledger.events = s.world.state.ledger.events)
    (since : t.since = s.since) (responses : t.responses = s.responses) :
    Serves s.feed t.feed := by
  have publish : Feed.Step MutationRecord.generation s.feed
      { s.feed with clock := s.feed.clock + 1, staged := t.writer.unappended } :=
    .publish free dated
  have same : t.feed = { s.feed with
      clock := s.feed.clock + 1, staged := t.writer.unappended } := by
    simp only [feed, ledger, generation, events, since, responses]
  rw [same]
  exact .single publish

theorem serves_of_append (generation : t.world.state.shared.generation =
      s.world.state.shared.generation)
    (events : t.world.state.ledger.events <:+ s.world.state.ledger.events ++ s.writer.unappended)
    (none_left : t.writer.unappended = []) (since : t.since = s.since)
    (responses : t.responses = s.responses) : Serves s.feed t.feed := by
  have append : Feed.Step MutationRecord.generation s.feed
      { s.feed with log := t.world.state.ledger.events, staged := [] } := .append events
  have same : t.feed = { s.feed with log := t.world.state.ledger.events, staged := [] } := by
    simp only [feed, ledger, generation, none_left, since, responses]
  rw [same]
  exact .single append

theorem serves_write {io : CommitIo} {plan : List PlannedFile} {requestId : Text}
    (step : ws.writeStep io plan requestId s = some t) : Serves s.feed t.feed ∧ t.Ready := by
  obtain ⟨world, writer, client, since, responses⟩ := s
  rw [Workspace.writeStep] at step
  cases writer with
  | idle =>
    obtain ⟨markers, state⟩ := writePlan_state io plan (.new plan) world
    revert step state
    rcases writePlan io plan (.new plan) world with ⟨stop, progress, written⟩
    intro step state
    simp only at state
    cases stop with
    | some stop =>
      cases step
      have keeps := compensate_keeps ws io progress.completed false written
      rw [state] at keeps
      exact ⟨serves_of_same keeps.1 keeps.2 rfl rfl rfl, ready_of_unwritten rfl⟩
    | none =>
      cases step
      refine ⟨serves_of_same (by simp [state]) (by rw [state]; rfl) rfl rfl rfl, ?_⟩
      rintro io' plan' progress' records ⟨⟩ record mem
      obtain ⟨item, -, rfl⟩ := List.mem_map.mp mem
      simp [Workspace.commitRecord, state]
  | _ => cases step

theorem serves_drain {io : ReconcileIo} (step : ws.drainStep io s = some t) :
    Serves s.feed t.feed ∧ t.Ready := by
  obtain ⟨world, writer, client, since, responses⟩ := s
  rw [Workspace.drainStep] at step
  cases writer with
  | idle =>
    simp only [ledger, ChangeLedger.drainPending_eq] at step
    by_cases asked : world.state.ledger.needsReconcile = true
    · rw [if_pos asked] at step
      cases step
      exact ⟨serves_of_same rfl rfl rfl rfl rfl, ready_of_unwritten rfl⟩
    · rw [if_neg asked] at step
      cases step
      exact ⟨serves_of_same rfl rfl rfl rfl rfl, ready_of_unwritten rfl⟩
  | _ => cases step

theorem serves_publish (ready : s.Ready) (step : ws.publishStep s = some t) :
    Serves s.feed t.feed ∧ t.Ready := by
  obtain ⟨world, writer, client, since, responses⟩ := s
  rw [Workspace.publishStep] at step
  cases writer with
  | written io plan progress records =>
    have dated := ready io plan progress records rfl
    have dates := publishCommit_generation ws io world.disk (planPaths plan) world.state.shared
    simp only [ReconciledState.update] at step
    revert step dates
    rcases ws.publishCommit io world.disk (planPaths plan) world.state.shared with ⟨result, later⟩
    intro step dates
    cases result with
    | error error =>
      cases step
      have keeps := compensate_keeps ws io progress.completed true
        { world with state := { world.state with
          shared := later, seen := world.state.seen ++ [later] } }
      exact ⟨serves_of_same (keeps.1.trans dates) keeps.2 rfl rfl rfl, ready_of_unwritten rfl⟩
    | ok =>
      cases step
      exact ⟨serves_of_publish rfl dates dated rfl rfl rfl, ready_of_unwritten rfl⟩
  | drained io drain =>
    have dates := publishReconcile_dates ws io world.disk drain world.state.shared
    simp only [ReconciledState.update] at step
    revert step dates
    rcases ws.publishReconcile io world.disk drain world.state.shared with ⟨result, later⟩
    intro step dates
    cases dates with
    | failed same =>
      cases step
      exact ⟨serves_of_same same rfl rfl rfl rfl, ready_of_unwritten rfl⟩
    | quiet same =>
      cases step
      exact ⟨serves_of_same same rfl rfl rfl rfl, ready_of_unwritten rfl⟩
    | published next dated =>
      cases step
      exact ⟨serves_of_publish rfl next dated rfl rfl rfl, ready_of_unwritten rfl⟩
  | _ => cases step

theorem serves_append (step : appendStep s = some t) : Serves s.feed t.feed ∧ t.Ready := by
  obtain ⟨world, writer, client, since, responses⟩ := s
  rw [appendStep] at step
  cases writer with
  | committed records =>
    cases step
    refine ⟨serves_of_append rfl ?_ rfl rfl rfl, ready_of_unwritten rfl⟩
    simp only [withState, ledger, ReconciledState.withLedger, ChangeLedger.record,
      Writer.unappended]
    exact ChangeLedger.bounded_suffix _
  | reconciled external =>
    simp only at step
    split at step
    · next nothing =>
      cases step
      exact ⟨serves_of_same rfl rfl nothing.symm rfl rfl, ready_of_unwritten rfl⟩
    · cases step
      refine ⟨serves_of_append rfl ?_ rfl rfl rfl, ready_of_unwritten rfl⟩
      simp only [withState, ledger, ReconciledState.withLedger, ChangeLedger.recordExternal,
        ChangeLedger.record, Writer.unappended]
      exact ChangeLedger.bounded_suffix _
  | _ => cases step

theorem serves_reconcile (io : ReconcileIo) (idle : s.writer = .idle)
    (client : Client) :
    Serves s.feed { s.withState (ws.reconcileWith io s.world.disk s.world.state).2 with
      client := client }.feed := by
  have outcome := reconcileWith_outcome ws io s.world.disk s.world.state
  revert outcome
  generalize ws.reconcileWith io s.world.disk s.world.state = result
  rcases result with ⟨result, later⟩
  intro outcome
  cases outcome with
  | idle none_asked => exact serves_of_same rfl rfl rfl rfl rfl
  | failed asked fails => exact serves_of_same rfl rfl rfl rfl rfl
  | quiet asked reads unchanged same =>
    exact serves_of_same (Reconciled.consultStatus_generation _ _ _) rfl rfl rfl rfl
  | @published changed asked reads refreshed moved =>
    let records := externalRecords ws io s.world.disk s.world.state changed
    let shared := publishedState ws io s.world.disk s.world.state changed
    have generation : shared.generation = s.world.state.shared.generation + 1 :=
      publishedState_generation ws io s.world.disk s.world.state changed
    let middle : Polling :=
      { s.withState { s.world.state with shared := shared } with writer := .reconciled records }
    have publish : Serves s.feed middle.feed := by
      refine serves_of_publish (by rw [idle]; rfl) generation (fun record mem => ?_) rfl rfl rfl
      obtain ⟨path, -, rfl⟩ := List.mem_map.mp mem
      exact generation
    refine publish.trans ?_
    by_cases nothing : records = []
    · simp only [records] at nothing
      rw [if_pos nothing]
      refine serves_of_same rfl rfl ?_ rfl rfl
      simp only [middle, withState, idle, Writer.unappended]
      exact nothing.symm
    · simp only [records] at nothing
      rw [if_neg nothing]
      refine serves_of_append rfl ?_ (by simp only [withState, idle]; rfl) rfl rfl
      simp only [withState, ChangeLedger.recordExternal, ChangeLedger.record,
        ChangeLedger.drained, middle, Writer.unappended]
      exact ChangeLedger.bounded_suffix _

theorem serves_poll {io : ReconcileIo} {limit : Nat} (ready : s.Ready)
    (step : ws.pollStep io limit s = some t) : Serves s.feed t.feed ∧ t.Ready := by
  rw [pollStep] at step
  cases client : s.client with
  | idle =>
    rw [client] at step
    simp only [reconcilePending] at step
    cases asked : s.ledger.needsReconcile with
    | false =>
      have none_asked : s.world.state.ledger.needsReconcile = false := asked
      simp only [asked, none_asked, Bool.false_and, Bool.false_eq_true, if_false] at step
      cases step
      exact ⟨serves_of_same rfl rfl rfl rfl rfl, ready_of_same ready rfl rfl⟩
    | true =>
      have some_asked : s.world.state.ledger.needsReconcile = true := asked
      cases writer : s.writer with
      | idle =>
        simp only [asked, some_asked, writer, Writer.isIdle, Bool.not_true, Bool.and_false,
          Bool.false_eq_true, if_false, if_true] at step
        have unwritten : s.writer.isWritten = false := by rw [writer]; rfl
        have serves : ∀ client, Serves s.feed
            { s.withState (ws.reconcileWith io s.world.disk s.world.state).2 with
              client := client }.feed := serves_reconcile io writer
        revert step serves
        rcases ws.reconcileWith io s.world.disk s.world.state with ⟨result, later⟩
        intro step serves
        cases result with
        | error error =>
          cases step
          exact ⟨serves s.client, ready_of_unwritten unwritten⟩
        | ok changed =>
          cases step
          exact ⟨serves (.reading limit), ready_of_unwritten unwritten⟩
      | _ =>
        simp only [asked, writer, Writer.isIdle, Bool.not_false, Bool.and_self, if_true] at step
        cases step
  | _ =>
    rw [client] at step
    cases step

theorem serves_read (ready : s.Ready) (step : readStep s = some t) :
    Serves s.feed t.feed ∧ t.Ready := by
  rw [readStep] at step
  cases client : s.client with
  | reading limit =>
    rw [client] at step
    cases step
    exact ⟨serves_of_same rfl rfl rfl rfl rfl, ready_of_same ready rfl rfl⟩
  | _ =>
    rw [client] at step
    cases step

theorem serves_stamp (ready : s.Ready) (whole : s.Whole .stamp) (step : ws.stampStep s = some t) :
    Serves s.feed t.feed ∧ t.Ready ∧ t.since = t.world.state.shared.generation := by
  rw [stampStep] at step
  rw [Whole] at whole
  cases client : s.client with
  | stamping limit records =>
    rw [client] at step whole
    obtain ⟨same, appended, room⟩ := whole
    cases step
    refine ⟨.single ?_, ready_of_same ready rfl rfl, rfl⟩
    have deliver : Feed.Step MutationRecord.generation s.feed
        { s.feed with cursor := s.feed.clock, deliveries := s.feed.deliveries ++ [records] } := by
      refine .deliver appended fun record => ?_
      rw [← same]
      exact ChangeLedger.mem_recordsSince room record
    simpa [feed, ledger, changesResponse] using deliver
  | _ =>
    rw [client] at step
    cases step

theorem serves_advance {action : PollAction} (ready : s.Ready) (whole : s.Whole action)
    (step : ws.PollStep s action t) : Serves s.feed t.feed ∧ t.Ready := by
  rw [PollStep] at step
  cases action with
  | disk disk =>
    cases step
    exact ⟨serves_of_same rfl rfl rfl rfl rfl, ready_of_same ready rfl rfl⟩
  | observe paths =>
    cases step
    refine ⟨serves_of_same rfl ?_ rfl rfl rfl, ready_of_same ready rfl rfl⟩
    exact events_observe ws s.world.disk s.world.state.ledger paths
  | write io plan requestId => exact serves_write step
  | drain io => exact serves_drain step
  | publish => exact serves_publish ready step
  | append => exact serves_append step
  | poll io limit => exact serves_poll ready step
  | read => exact serves_read ready step
  | stamp =>
    have serves := serves_stamp ready whole step
    exact ⟨serves.1, serves.2.1⟩

end

end Polling

section

variable {ws : Workspace} {world : World} {first : Nat} {actions : List PollAction}
  {s t : Polling}

theorem follows_reached (opened : ws.Opened world)
    (run : Run (Along Polling.Whole ws.PollStep) (.start world first) actions s) :
    s.feed.Follows MutationRecord.generation first ∧ s.Ready := by
  refine run.invariant_along
    (fun s => s.feed.Follows MutationRecord.generation first ∧ s.Ready) ?_ ⟨?_, ?_⟩
  · intro s action t both whole step
    have serves := Polling.serves_advance both.2 whole step
    exact ⟨both.1.steps serves.1, serves.2⟩
  · obtain ⟨disk, io, cache, index, status, -, state⟩ := opened
    have log : world.state.ledger.events = [] := by rw [state]; rfl
    constructor
    · intro record mem
      simp [Polling.feed, Polling.start, Polling.ledger, log] at mem
    · intro record mem
      cases mem
    · exact fun _ => rfl
    · exact fun served => absurd rfl served
    · intro record mem
      cases mem
    · intro batch mem
      cases mem
    · intro record mem
      simp [Polling.feed, Polling.start, Polling.ledger, log] at mem
    · intro i j batch other at_i
      cases at_i
  · exact Polling.ready_of_unwritten rfl

/-- Each time a poll has been answered, an empty answer among them, every record in the
log past the client's first generation is in one response, and in no other. -/
theorem polled_exactly_once (opened : ws.Opened world)
    (run : Run (Along Polling.Whole ws.PollStep) (.start world first) actions s)
    (whole : s.Whole .stamp) (answered : ws.PollStep s .stamp t) :
    ∀ record ∈ t.ledger.events, first < record.generation →
      ∃! i : Nat, ∃ response : ChangesResponse,
        t.responses[i]? = some response ∧ record ∈ response.mutations := by
  intro record mem late
  have before := follows_reached opened run
  have serves := Polling.serves_stamp before.2 whole answered
  have follows := before.1.steps serves.1
  have passed : record.generation ≤ t.since := by
    rw [serves.2.2]
    exact follows.dated record mem
  obtain ⟨i, ⟨batch, at_i, inBatch⟩, only⟩ := follows.exactly_once mem late passed
  simp only [Polling.feed, List.getElem?_map, Option.map_eq_some_iff] at at_i only
  obtain ⟨response, at_response, rfl⟩ := at_i
  refine ⟨i, ⟨response, at_response, inBatch⟩, ?_⟩
  rintro j ⟨other, at_j, inOther⟩
  exact only j ⟨other.mutations, ⟨other, at_j, rfl⟩, inOther⟩

end

theorem run_advanceAll {ws : Workspace} {Guard : Polling → PollAction → Prop}
    {actions : List PollAction} {s t : Polling} (guarded : ∀ s, ∀ action ∈ actions, Guard s action)
    (eq : ws.advanceAll actions s = some t) : Run (Along Guard ws.PollStep) s actions t :=
  have run : Run ws.PollStep s actions t := Run.of_foldlM eq
  run.along guarded

namespace Sample

def emptyRoot : World := .opened .plain (Disk.holding [])

def creatingA : List PlannedFile := [⟨pathA, none, none, some "new".toList⟩]

def committing : List PollAction := [.write .calm creatingA [], .publish, .append]

theorem opened_emptyRoot : Workspace.plain.Opened emptyRoot :=
  Workspace.plain.opened_opened (by decide)

end Sample

open Sample in
theorem polled_exactly_once_committing :
    ∃ t : Polling, t.ledger.events ≠ [] ∧ ∀ record ∈ t.ledger.events, 0 < record.generation →
      ∃! i : Nat, ∃ response : ChangesResponse,
        t.responses[i]? = some response ∧ record ∈ response.mutations := by
  let actions := committing ++ [.poll .calm 10, .read]
  obtain ⟨s, eq⟩ := Option.isSome_iff_exists.mp
    (show (Workspace.plain.advanceAll actions (.start emptyRoot 0)).isSome = true by decide)
  have facts : (Workspace.plain.advanceAll actions (.start emptyRoot 0)).all
      (fun s => s.Whole .stamp ∧ (Workspace.plain.advance s .stamp).any
        fun t => t.ledger.events ≠ []) = true := by decide
  rw [eq, Option.all_some, decide_eq_true_eq] at facts
  obtain ⟨t, answered, logged⟩ := Option.any_eq_true _ _ |>.mp facts.2
  have unstamped : ∀ s, ∀ action ∈ actions, Polling.Whole s action := by
    intro s action mem
    cases action with
    | stamp => simp [actions, committing] at mem
    | _ => trivial
  refine ⟨t, of_decide_eq_true logged, ?_⟩
  exact polled_exactly_once opened_emptyRoot (run_advanceAll unstamped eq) facts.1 answered

-- The stamp is that of the commit, whose record is not in the log yet.
open Sample in
theorem poll_misses_record :
    ¬∀ (world : World) (first : Nat) (actions : List PollAction) (s t : Polling),
      Workspace.plain.Opened world →
      Run Workspace.plain.PollStep (.start world first) actions s →
      (∀ io limit, .poll io limit ∈ actions → 1 ≤ limit) →
      Workspace.plain.PollStep s .stamp t → t.writer = .idle →
      (∃ response, t.responses.getLast? = some response ∧ response.mutations = []) →
      ∀ record ∈ t.ledger.events, first < record.generation →
        ∃! i : Nat, ∃ response : ChangesResponse,
          t.responses[i]? = some response ∧ record ∈ response.mutations := by
  intro all
  let actions : List PollAction := [.write .calm creatingA [], .publish, .poll .calm 10, .read,
    .stamp, .append, .poll .calm 10, .read]
  obtain ⟨s, eq⟩ := Option.isSome_iff_exists.mp
    (show (Workspace.plain.advanceAll actions (.start emptyRoot 0)).isSome = true by decide)
  have facts : (Workspace.plain.advanceAll actions (.start emptyRoot 0)).all
      (fun s => (Workspace.plain.advance s .stamp).any fun t => t.writer.isIdle ∧
        t.responses.map ChangesResponse.mutations = [[], []] ∧
        t.ledger.events.map MutationRecord.generation = [2]) = true := by decide
  rw [eq, Option.all_some] at facts
  obtain ⟨t, answered, state⟩ := Option.any_eq_true _ _ |>.mp facts
  obtain ⟨idle, responses, log⟩ := of_decide_eq_true state
  have run : Run (Along (fun _ _ => True) Workspace.plain.PollStep) (.start emptyRoot 0) actions s :=
    run_advanceAll (fun _ _ _ => trivial) eq
  have limits : ∀ io limit, .poll io limit ∈ actions → 1 ≤ limit := by
    intro io limit mem
    simp only [actions, List.mem_cons, PollAction.poll.injEq, reduceCtorEq, List.not_mem_nil,
      false_or, or_false] at mem
    omega
  have last : ∃ response, t.responses.getLast? = some response ∧ response.mutations = [] := by
    have ends : (t.responses.map ChangesResponse.mutations).getLast? = some [] := by
      rw [responses]
      rfl
    rw [List.getLast?_map] at ends
    exact Option.map_eq_some_iff.mp ends
  have dated : 2 ∈ t.ledger.events.map MutationRecord.generation := by rw [log]; simp
  obtain ⟨record, mem, generation⟩ := List.mem_map.mp dated
  obtain ⟨i, ⟨response, at_i, inResponse⟩, -⟩ := all _ 0 actions s t opened_emptyRoot run.forget
    limits answered (Writer.isIdle_iff.mp idle) last record mem (by omega)
  have delivered : response.mutations ∈ t.responses.map ChangesResponse.mutations :=
    List.mem_map.mpr ⟨response, List.mem_of_getElem? at_i, rfl⟩
  rw [responses] at delivered
  have nothing : response.mutations = [] := by simpa using delivered
  rw [nothing] at inResponse
  cases inResponse

end CodeWeave
