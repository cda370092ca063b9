import CodeWeave.Defs.Bash.LifecycleLaws
import CodeWeave.Defs.Workspace.BashRuns
import CodeWeave.Defs.Workspace.RunChanges

namespace CodeWeave

open Runs

namespace RunRecord

def attribution (record : RunRecord) :
    Option ChangeBaseline × Option FrozenChanges × Option ChangeBaseline × Bool :=
  (record.baseline, record.frozenChanges, record.captured, record.installed)

variable (record : RunRecord)

@[simp] theorem attribution_addNote (note : String) :
    (record.addNote note).attribution = record.attribution := rfl

@[simp] theorem attribution_transition (now : Timestamp) (next : RunStatus) :
    (record.transition now next).2.attribution = record.attribution := by
  unfold transition
  split
  · cases terminal : next.isTerminal <;> simp [attribution]
  · rfl

@[simp] theorem attribution_finish (now : Timestamp) (status : RunStatus) (exitCode : Option Int)
    (note : Option String) :
    (record.finish now status exitCode note).2.attribution = record.attribution := by
  have moved := record.attribution_transition now status
  unfold finish
  split
  · next later eq => rwa [eq] at moved
  · next later eq =>
    rw [eq] at moved
    exact moved

@[simp] theorem attribution_finishProcess (now : Timestamp) (outcome : ProcessOutcome) :
    (record.finishProcess now outcome).2.attribution = record.attribution := by
  cases outcome with
  | exited code success => simp only [finishProcess]; split <;> simp
  | waitFailed error => simp [finishProcess]
  | timedOut timeoutMs => simp only [finishProcess]; split <;> simp

@[simp] theorem attribution_startProcess (now : Timestamp) (group : ProcessGroup) :
    (record.startProcess now group).2.attribution = record.attribution := by
  have moved := { record with startedAt := now }.attribution_transition now .running
  have placed : ∀ later : RunRecord,
      (if later.status.isTerminal then later else { later with process := some group }).attribution =
        later.attribution := by
    intro later
    split <;> rfl
  simp only [startProcess, placed]
  split
  · rfl
  · exact moved

@[simp] theorem attribution_execute (execution : Execution) :
    (record.execute execution).attribution = record.attribution := by
  have warned : ∀ warning : Option String,
      (warning.elim record record.addNote).attribution = record.attribution := by
    intro warning
    cases warning <;> rfl
  cases execution with
  | cancelledBeforeStart now =>
    simp only [execute, finishIfCancelledBeforeStart]
    split <;> simp
  | processStarted now warning group => simp [execute, warned]
  | processEnded now warning outcome => simp [execute, warned]
  | failed now message => simp [execute]
  | abandoned now => simp [execute]

@[simp] theorem attribution_requestCancel (now : Timestamp) :
    (record.requestCancel now).2.attribution = record.attribution := by
  have moved := record.attribution_transition now .cancelling
  unfold requestCancel
  split
  · next later eq => rwa [eq] at moved
  · next later eq =>
    rw [eq] at moved
    exact moved

@[simp] theorem attribution_poll (request : PollRequest) :
    (record.poll request).2.attribution = record.attribution := by
  cases request with
  | status | output => rfl
  | cancel now =>
    have moved := record.attribution_requestCancel now
    simp only [poll]
    split
    · next later eq => rwa [eq] at moved
    · next group later eq => rwa [eq] at moved

end RunRecord

def FrozenChanges.ComputedIn (ws : Workspace) (changes : FrozenChanges) : Prop :=
  changes.generation = changes.window.endGeneration ∧
    ∃ disk times, ∃ ledger : ChangeLedger,
      changes.paths = ledger.attributeSince ws disk times changes.window

def RunWindow.From (window : RunWindow) (captured : Option ChangeBaseline) : Prop :=
  ∀ baseline, captured = some baseline → window.baseline = baseline

structure RunRecord.Sound (ws : Workspace) (record : RunRecord) : Prop where
  installed : ∀ baseline, record.captured = some baseline → record.installed = true →
    record.baseline = some baseline
  frozen : ∀ changes, record.frozenChanges = some changes →
    changes.ComputedIn ws ∧ changes.window.From record.captured

theorem RunRecord.Sound.of_attribution {ws : Workspace} {record later : RunRecord}
    (sound : record.Sound ws) (same : later.attribution = record.attribution) :
    later.Sound ws := by
  obtain ⟨baseline, frozen, captured, installed⟩ :
      later.baseline = record.baseline ∧ later.frozenChanges = record.frozenChanges ∧
        later.captured = record.captured ∧ later.installed = record.installed := by
    simpa only [attribution, Prod.mk.injEq] using same
  refine ⟨?_, ?_⟩
  · rw [baseline, captured, installed]
    exact sound.installed
  · rw [frozen, captured]
    exact sound.frozen

namespace BashRuns

def Tells (s : BashRuns) (run : RunId) (P : Option ChangeBaseline → Prop) : Prop :=
  run ∈ s.drawn ∧ ∀ record, s.runs.lookup run = some record → P record.captured

end BashRuns

def RunCall.Sound (ws : Workspace) (s : BashRuns) : RunCall → Prop
  | .inserted run baseline _ | .started run baseline | .returned run baseline _ =>
    s.Tells run (· = some baseline)
  | .windowed run terminal window => terminal = true → s.Tells run window.From
  | .attributed run changes => changes.ComputedIn ws ∧ s.Tells run changes.window.From
  | _ => True

/-- A terminal call, about to take the window of a run that is not frozen yet, comes after
`start` has installed the captured baseline, or what it finds there instead is the same. -/
def RunCall.AfterInstall (s : BashRuns) : RunCall → Prop
  | .stamped run true current => ∀ record ∈ s.runs.lookup run, ∀ baseline ∈ record.captured,
    record.frozenChanges = none →
      record.installed = true ∨ record.baseline.getD current = baseline
  | _ => True

instance (s : BashRuns) : (phase : RunCall) → Decidable (phase.AfterInstall s)
  | .stamped _ true _ => inferInstanceAs (Decidable (∀ record ∈ _, ∀ baseline ∈ _, _ → _ ∨ _))
  | .stamped _ false _ | .entered | .reconciled | .captured _ | .inserted _ _ _ | .started _ _
  | .returned _ _ _ | .acted _ _ _ | .settled _ _ | .windowed _ _ _ | .attributed _ _ =>
    .isTrue trivial

namespace BashRuns

def AfterInstall (s : BashRuns) : RunEvent → Prop
  | .window call => ∀ phase ∈ s.calls call, phase.AfterInstall s
  | _ => True

instance (s : BashRuns) : (event : RunEvent) → Decidable (s.AfterInstall event)
  | .window call => inferInstanceAs (Decidable (∀ phase ∈ s.calls call, phase.AfterInstall s))
  | .world _ | .enter _ | .reconcile _ _ | .capture _ | .insert _ _ _ | .evict _ | .answer _
  | .install _ | .poll _ _ _ | .settle _ _ _ | .stamp _ | .attributeSince _ _ | .freeze _
  | .drop _ | .queue _ _ | .execute _ _ => .isTrue trivial

end BashRuns

/-- What every record, and every call on its way, knows of the captured baselines. -/
structure BashRuns.Tracked (ws : Workspace) (s : BashRuns) : Prop where
  drawn : ∀ run record, s.runs.lookup run = some record → run ∈ s.drawn
  records : ∀ run record, s.runs.lookup run = some record → record.Sound ws
  calls : ∀ call phase, s.calls call = some phase → phase.Sound ws s

def BashRuns.Keeps (s t : BashRuns) : Prop :=
  ∀ run ∈ s.drawn, run ∈ t.drawn ∧ ∀ later, t.runs.lookup run = some later →
    ∃ record, s.runs.lookup run = some record ∧ later.captured = record.captured

theorem RunCall.Sound.mono {ws : Workspace} {s t : BashRuns} (keeps : s.Keeps t)
    {phase : RunCall} (sound : phase.Sound ws s) : phase.Sound ws t := by
  have tells : ∀ {run P}, s.Tells run P → t.Tells run P := by
    intro run P told
    have kept := keeps run told.1
    refine ⟨kept.1, fun later at_ => ?_⟩
    obtain ⟨record, before, same⟩ := kept.2 later at_
    rw [same]
    exact told.2 record before
  cases phase with
  | inserted run baseline _ | started run baseline | returned run baseline _ =>
    exact tells (P := (· = some baseline)) sound
  | windowed run terminal window => exact fun ended => tells (sound ended)
  | attributed run changes => exact ⟨sound.1, tells sound.2⟩
  | _ => trivial

namespace BashRuns

variable {ws : Workspace} {s : BashRuns}

theorem get_eq_ok {runs : RunTable} {run : RunId} {record : RunRecord}
    (h : runs.get run = .ok record) : runs.lookup run = some record := by
  unfold RunTable.get at h
  split at h
  · next found eq => rw [eq, Except.ok.inj h]
  · cases h

theorem lookup_of_lookup_evict {runs : RunTable} {ended : List RunId} {run : RunId}
    {record : RunRecord} (h : (runs.evict ended).lookup run = some record) :
    runs.lookup run = some record := by
  rw [RunTable.lookup_evict] at h
  split at h
  · cases h
  · exact h

theorem Tracked.withCall (tracked : s.Tracked ws) (call : Nat) {next : Option RunCall}
    (sound : ∀ phase, next = some phase → phase.Sound ws s) : (s.withCall call next).Tracked ws := by
  refine ⟨tracked.drawn, tracked.records, fun other phase at_ => ?_⟩
  simp only [BashRuns.withCall] at at_
  split at at_
  · exact sound phase at_
  · exact tracked.calls other phase at_

theorem Tracked.dropped (tracked : s.Tracked ws) (call : Nat) : (s.withCall call none).Tracked ws :=
  tracked.withCall call nofun

theorem Tracked.moved (tracked : s.Tracked ws) (call : Nat) {next : RunCall}
    (sound : next.Sound ws s) : (s.withCall call (some next)).Tracked ws :=
  tracked.withCall call fun phase same => by
    cases same
    exact sound

theorem Tracked.reported (tracked : s.Tracked ws) (call : Nat) (answer : RunAnswer) :
    (s.report call answer).Tracked ws :=
  ⟨tracked.drawn, tracked.records, (tracked.dropped call).calls⟩

theorem Tracked.withWorld (tracked : s.Tracked ws) (world : World) :
    { s with world := world }.Tracked ws :=
  ⟨tracked.drawn, tracked.records, tracked.calls⟩

theorem Tracked.withRecord (tracked : s.Tracked ws) {run : RunId} {record later : RunRecord}
    (at_ : s.runs.lookup run = some record) (captured : later.captured = record.captured)
    (sound : later.Sound ws) : (s.withRecord run later).Tracked ws := by
  have found : ∀ other found, (s.withRecord run later).runs.lookup other = some found →
      other = run ∧ found = later ∨ s.runs.lookup other = some found := by
    intro other found at_other
    simp only [BashRuns.withRecord] at at_other
    by_cases same : other = run
    · rw [same, AList.lookup_insert] at at_other
      exact .inl ⟨same, (Option.some.inj at_other).symm⟩
    · rw [AList.lookup_insert_ne same] at at_other
      exact .inr at_other
  have keeps : s.Keeps (s.withRecord run later) := by
    intro other drawn
    refine ⟨drawn, fun now at_other => ?_⟩
    rcases found other now at_other with ⟨rfl, rfl⟩ | before
    · exact ⟨record, at_, captured⟩
    · exact ⟨now, before, rfl⟩
  refine ⟨?_, ?_, ?_⟩
  · intro other now at_other
    rcases found other now at_other with ⟨rfl, rfl⟩ | before
    · exact tracked.drawn _ _ at_
    · exact tracked.drawn other now before
  · intro other now at_other
    rcases found other now at_other with ⟨rfl, rfl⟩ | before
    · exact sound
    · exact tracked.records other now before
  · intro call phase at_call
    exact (tracked.calls call phase at_call).mono keeps

theorem Tracked.evicted (tracked : s.Tracked ws) (ended : List RunId) :
    { s with runs := s.runs.evict ended }.Tracked ws := by
  refine ⟨?_, ?_, ?_⟩
  · intro run record at_
    exact tracked.drawn run record (lookup_of_lookup_evict at_)
  · intro run record at_
    exact tracked.records run record (lookup_of_lookup_evict at_)
  · intro call phase at_call
    have keeps : s.Keeps { s with runs := s.runs.evict ended } := fun run drawn =>
      ⟨drawn, fun later at_ => ⟨later, lookup_of_lookup_evict at_, rfl⟩⟩
    exact (tracked.calls call phase at_call).mono keeps

theorem insertRun_runs (s : BashRuns) (run : RunId) (now : Timestamp)
    (captured : Option ChangeBaseline) :
    (s.insertRun run now captured).2.runs =
      s.runs.insert run (.queued run s.sequence now captured) := by
  simp only [insertRun, RunTable.insertRun]
  split <;> rfl

theorem Tracked.inserted (tracked : s.Tracked ws) {run : RunId} (fresh : run ∉ s.drawn)
    (now : Timestamp) (captured : Option ChangeBaseline) :
    (s.insertRun run now captured).2.Tracked ws := by
  have found : ∀ other found, (s.insertRun run now captured).2.runs.lookup other = some found →
      other = run ∧ found = .queued run s.sequence now captured ∨
        s.runs.lookup other = some found := by
    intro other found at_
    rw [insertRun_runs] at at_
    by_cases same : other = run
    · rw [same, AList.lookup_insert] at at_
      exact .inl ⟨same, (Option.some.inj at_).symm⟩
    · rw [AList.lookup_insert_ne same] at at_
      exact .inr at_
  refine ⟨?_, ?_, ?_⟩
  · intro other record at_
    rcases found other record at_ with ⟨rfl, -⟩ | before
    · exact List.mem_cons_self
    · exact List.mem_cons_of_mem _ (tracked.drawn other record before)
  · intro other record at_
    rcases found other record at_ with ⟨rfl, rfl⟩ | before
    · exact ⟨nofun, nofun⟩
    · exact tracked.records other record before
  · intro call phase at_call
    refine (tracked.calls call phase at_call).mono fun other drawn => ?_
    refine ⟨List.mem_cons_of_mem _ drawn, fun later at_ => ?_⟩
    rcases found other later at_ with ⟨rfl, -⟩ | before
    · exact absurd drawn fresh
    · exact ⟨later, before, rfl⟩

theorem tells_inserted (s : BashRuns) (run : RunId) (now : Timestamp)
    (captured : Option ChangeBaseline) :
    (s.insertRun run now captured).2.Tells run (· = captured) := by
  refine ⟨List.mem_cons_self, fun record at_ => ?_⟩
  rw [insertRun_runs, AList.lookup_insert] at at_
  cases at_
  rfl

theorem sound_setBaseline {record : RunRecord} (sound : record.Sound ws)
    {baseline : ChangeBaseline} (captured : record.captured = some baseline) :
    (record.setBaseline baseline).Sound ws := by
  refine ⟨fun other same _ => ?_, sound.frozen⟩
  rw [← same]
  exact captured.symm

theorem sound_changeWindow {record : RunRecord} (sound : record.Sound ws)
    (fallback : ChangeBaseline) : (record.changeWindow fallback).2.Sound ws := by
  refine ⟨fun baseline captured installed => ?_, sound.frozen⟩
  simp only [RunRecord.changeWindow, sound.installed baseline captured installed,
    Option.getD_some]

theorem sound_freezeChanges {record : RunRecord} (sound : record.Sound ws)
    {changes : FrozenChanges} (computed : changes.ComputedIn ws)
    (since : changes.window.From record.captured) : (record.freezeChanges changes).2.Sound ws := by
  refine ⟨sound.installed, fun later same => ?_⟩
  simp only [RunRecord.freezeChanges, Option.some.injEq] at same
  cases before : record.frozenChanges with
  | none =>
    rw [before, Option.getD_none] at same
    exact same ▸ ⟨computed, since⟩
  | some frozen =>
    rw [before, Option.getD_some] at same
    exact same ▸ sound.frozen frozen before

theorem Tracked.installStep (tracked : s.Tracked ws) {call : Nat} {t : BashRuns}
    (step : s.installStep call = some t) : t.Tracked ws := by
  unfold BashRuns.installStep at step
  split at step
  · next run baseline status at_ =>
    cases step
    have told : s.Tells run (· = some baseline) := tracked.calls call _ at_
    refine Tracked.moved ?_ call trivial
    unfold setChangeBaseline
    split
    · next record got =>
      have here := get_eq_ok got
      exact tracked.withRecord here rfl
        (sound_setBaseline (tracked.records run record here) (told.2 record here))
    · exact tracked
  · cases step

theorem Tracked.pollStep (tracked : s.Tracked ws) {call : Nat} {run : RunId}
    {request : PollRequest} {t : BashRuns} (step : s.pollStep call run request = some t) :
    t.Tracked ws := by
  unfold BashRuns.pollStep at step
  split at step
  · split at step
    · cases step
      exact tracked
    · next record got =>
      cases step
      have here := get_eq_ok got
      have same := record.attribution_poll request
      refine Tracked.moved ?_ call trivial
      exact tracked.withRecord here (congrArg (·.2.2.1) same)
        ((tracked.records run record here).of_attribution same)
  · cases step

theorem Tracked.windowStep (tracked : s.Tracked ws) {call : Nat} {t : BashRuns}
    (after : s.AfterInstall (.window call)) (step : s.windowStep call = some t) : t.Tracked ws := by
  unfold BashRuns.windowStep at step
  split at step
  · next run terminal current at_ =>
    split at step
    · cases step
      exact tracked.dropped call
    · next record got =>
      have here := get_eq_ok got
      have sound := tracked.records run record here
      have opened : (s.withRecord run (record.changeWindow current).2).Tracked ws :=
        tracked.withRecord here rfl (sound_changeWindow sound current)
      simp only at step
      split at step
      · cases step
        exact opened.reported call _
      · next unfrozen =>
        cases step
        refine opened.moved call fun ended => ⟨tracked.drawn run record here, fun later now => ?_⟩
        rw [BashRuns.withRecord, AList.lookup_insert] at now
        cases now
        intro baseline captured
        subst ended
        show record.baseline.getD current = baseline
        rcases after _ at_ record here baseline captured unfrozen with installed | same
        · rw [sound.installed baseline captured installed, Option.getD_some]
        · exact same
  · cases step

theorem Tracked.freezeStep (tracked : s.Tracked ws) {call : Nat} {t : BashRuns}
    (step : s.freezeStep call = some t) : t.Tracked ws := by
  unfold BashRuns.freezeStep at step
  split at step
  · next run changes at_ =>
    have told : changes.ComputedIn ws ∧ s.Tells run changes.window.From :=
      tracked.calls call _ at_
    split at step
    · cases step
      exact tracked.dropped call
    · next record got =>
      cases step
      have here := get_eq_ok got
      refine Tracked.reported ?_ call _
      exact tracked.withRecord here rfl (sound_freezeChanges (tracked.records run record here)
        told.1 (told.2.2 record here))
  · cases step

theorem Tracked.reconcileCall (tracked : s.Tracked ws) (call : Nat) (io : ReconcileIo)
    {next : RunCall} (sound : ∀ t, RunCall.Sound ws t next) :
    (ws.reconcileCall s call io next).Tracked ws := by
  unfold Workspace.reconcileCall
  split
  · exact (tracked.withWorld _).dropped call
  · exact (tracked.withWorld _).moved call (sound _)

theorem Tracked.attributeStep (tracked : s.Tracked ws) {call : Nat} {times : StatTimes}
    {t : BashRuns} (step : ws.attributeStep s call times = some t) : t.Tracked ws := by
  unfold Workspace.attributeStep at step
  split at step
  · next run terminal window at_ =>
    have told : terminal = true → s.Tells run window.From := tracked.calls call _ at_
    simp only at step
    split at step
    · next ended =>
      cases step
      exact tracked.moved call ⟨⟨rfl, _, _, _, rfl⟩, told ended⟩
    · cases step
      exact tracked.reported call _
  · cases step

theorem Tracked.insertStep (tracked : s.Tracked ws) {call : Nat} {run : RunId} {now : Timestamp}
    {t : BashRuns} (step : s.insertStep call run now = some t) : t.Tracked ws := by
  unfold BashRuns.insertStep at step
  split at step
  · next baseline at_ =>
    split at step
    · cases step
    · next fresh =>
      cases step
      exact (tracked.inserted fresh now (some baseline)).moved call
        (s.tells_inserted run now (some baseline))
  · cases step

theorem Tracked.evictStep (tracked : s.Tracked ws) {call : Nat} {t : BashRuns}
    (step : s.evictStep call = some t) : t.Tracked ws := by
  unfold BashRuns.evictStep at step
  split at step
  · next run baseline ended at_ =>
    cases step
    have told : s.Tells run (· = some baseline) := tracked.calls call _ at_
    exact (tracked.evicted ended).moved call
      ⟨told.1, fun record here => told.2 record (lookup_of_lookup_evict here)⟩
  · cases step

theorem Tracked.answerStep (tracked : s.Tracked ws) {call : Nat} {t : BashRuns}
    (step : s.answerStep call = some t) : t.Tracked ws := by
  unfold BashRuns.answerStep at step
  split at step
  · next run baseline at_ =>
    have told : s.Tells run (· = some baseline) := tracked.calls call _ at_
    split at step
    · cases step
      exact tracked.dropped call
    · cases step
      exact tracked.moved call told
  · cases step

theorem Tracked.settleStep (tracked : s.Tracked ws) {call : Nat} {io : ReconcileIo}
    {debounced : Bool} {t : BashRuns} (step : ws.settleStep s call io debounced = some t) :
    t.Tracked ws := by
  unfold Workspace.settleStep at step
  split at step
  · split at step
    · cases step
      exact tracked.moved call trivial
    · cases step
      exact tracked.reconcileCall call io fun _ => trivial
  · cases step

theorem Tracked.queueStep (tracked : s.Tracked ws) {run : RunId} {now : Timestamp} {t : BashRuns}
    (step : s.queueStep run now = some t) : t.Tracked ws := by
  unfold BashRuns.queueStep at step
  split at step
  · cases step
  · next fresh =>
    cases step
    exact (tracked.inserted fresh now none).evicted _

theorem Tracked.executeStep (tracked : s.Tracked ws) {run : RunId} {execution : Execution}
    {t : BashRuns} (step : s.executeStep run execution = some t) : t.Tracked ws := by
  unfold BashRuns.executeStep at step
  split at step
  · cases step
  · next record got =>
    cases step
    have here := get_eq_ok got
    have same := record.attribution_execute execution
    exact tracked.withRecord here (congrArg (·.2.2.1) same)
      ((tracked.records run record here).of_attribution same)

theorem Tracked.step (tracked : s.Tracked ws) {event : RunEvent} {t : BashRuns}
    (after : s.AfterInstall event) (step : ws.RunStep s event t) : t.Tracked ws := by
  cases event with
  | world action =>
    cases step
    exact tracked.withWorld _
  | enter call =>
    simp only [Workspace.RunStep, Workspace.advanceRuns, enterStep] at step
    split at step
    · cases step
      exact tracked.moved call trivial
    · cases step
  | reconcile call io =>
    simp only [Workspace.RunStep, Workspace.advanceRuns, Workspace.reconcileStep] at step
    split at step
    · cases step
      exact tracked.reconcileCall call io fun _ => trivial
    · cases step
  | capture call =>
    simp only [Workspace.RunStep, Workspace.advanceRuns, captureStep] at step
    split at step
    · cases step
      exact tracked.moved call trivial
    · cases step
  | insert call run now => exact tracked.insertStep step
  | evict call => exact tracked.evictStep step
  | answer call => exact tracked.answerStep step
  | install call => exact tracked.installStep step
  | poll call run request => exact tracked.pollStep step
  | settle call io debounced => exact tracked.settleStep step
  | stamp call =>
    simp only [Workspace.RunStep, Workspace.advanceRuns, stampStep] at step
    split at step
    · cases step
      exact tracked.moved call trivial
    · cases step
  | window call => exact tracked.windowStep after step
  | attributeSince call times => exact tracked.attributeStep step
  | freeze call => exact tracked.freezeStep step
  | drop call =>
    cases step
    exact tracked.dropped call
  | queue run now => exact tracked.queueStep step
  | execute run execution => exact tracked.executeStep step

theorem tracked_start (world : World) : (start world).Tracked ws where
  drawn := by
    intro run record at_
    rw [start, AList.lookup_empty] at at_
    cases at_
  records := by
    intro run record at_
    rw [start, AList.lookup_empty] at at_
    cases at_
  calls := nofun

end BashRuns

/-- Where every terminal call takes its window after the install, what is frozen for a
run was computed from the baseline captured before the run was started. -/
theorem frozen_since_captured (ws : Workspace) (world : World) (events : List RunEvent)
    (s : BashRuns) (h : Run (Along BashRuns.AfterInstall ws.RunStep) (.start world) events s)
    (run : RunId) (record : RunRecord) (baseline : ChangeBaseline) (changes : FrozenChanges)
    (here : s.runs.lookup run = some record) (captured : record.captured = some baseline)
    (frozen : record.frozenChanges = some changes) :
    changes.ComputedIn ws ∧ changes.window.baseline = baseline := by
  have tracked : s.Tracked ws := h.invariant_along (BashRuns.Tracked ws)
    (fun _ _ _ tracked after step => tracked.step after step) (BashRuns.tracked_start world)
  have since := (tracked.records run record here).frozen changes frozen
  exact ⟨since.1, since.2 baseline captured⟩

section

variable (ws : Workspace) (s : BashRuns) {call : Nat} {run : RunId}

def RunRecord.opened (record : RunRecord) (current : ChangeBaseline) : RunRecord :=
  (record.changeWindow current).2

def RunRecord.window (record : RunRecord) (current : ChangeBaseline) : RunWindow :=
  ⟨(record.baseline.getD current).generation, current.generation, record.endedAt,
    (record.baseline.getD current).dirty, current.dirty⟩

theorem windowStep_unfrozen {record : RunRecord} {current : ChangeBaseline}
    (at_ : s.calls call = some (.stamped run true current)) (got : s.runs.get run = .ok record)
    (unfrozen : record.frozenChanges = none) :
    ws.RunStep s (.window call) ((s.withRecord run (record.opened current)).withCall call
      (some (.windowed run true (record.window current)))) := by
  simp only [Workspace.RunStep, Workspace.advanceRuns, BashRuns.windowStep, at_, got,
    RunRecord.opened, RunRecord.window, RunRecord.changeWindow, unfrozen, if_true]

theorem attributeStep_terminal {window : RunWindow} (times : StatTimes)
    (at_ : s.calls call = some (.windowed run true window)) :
    ws.RunStep s (.attributeSince call times) (s.withCall call (some (.attributed run
      ⟨window.endGeneration, s.world.state.ledger.attributeSince ws s.world.disk times window,
        window⟩))) := by
  simp only [Workspace.RunStep, Workspace.advanceRuns, Workspace.attributeStep, at_, if_true]

theorem freezeStep_unfrozen (record : RunRecord) {changes : FrozenChanges}
    (at_ : s.calls call = some (.attributed run changes)) (got : s.runs.get run = .ok record)
    (unfrozen : record.frozenChanges = none) :
    ws.RunStep s (.freeze call)
      ((s.withRecord run { record with frozenChanges := some changes }).report call
        ⟨run, changes.window.startGeneration, changes.generation, changes.paths⟩) := by
  simp only [Workspace.RunStep, Workspace.advanceRuns, BashRuns.freezeStep, at_, got,
    RunRecord.freezeChanges, unfrozen]
  rfl

end

theorem freezes_fallback (ws : Workspace) (s : BashRuns) (call : Nat) (times : StatTimes)
    (early : ¬s.AfterInstall (.window call)) :
    ∃ t, Run ws.RunStep s [.window call, .attributeSince call times, .freeze call] t ∧
      ∃ run record baseline changes, t.runs.lookup run = some record ∧
        record.captured = some baseline ∧ record.frozenChanges = some changes ∧
        changes.window.baseline ≠ baseline := by
  simp only [BashRuns.AfterInstall, not_forall, Option.mem_def] at early
  obtain ⟨phase, at_, early⟩ := early
  cases phase with
  | stamped run terminal current =>
    cases terminal with
    | false => exact absurd trivial early
    | true =>
      simp only [RunCall.AfterInstall, Option.mem_def, not_forall, not_or] at early
      obtain ⟨record, here, baseline, captured, unfrozen, -, other⟩ := early
      have got : s.runs.get run = .ok record := by rw [RunTable.get, here]
      have first := windowStep_unfrozen ws s at_ got unfrozen
      have second := attributeStep_terminal ws ((s.withRecord run (record.opened current)).withCall
        call (some (.windowed run true (record.window current)))) times (if_pos rfl)
      refine ⟨_, ((Run.single first).snoc second).snoc
        (freezeStep_unfrozen ws _ (record.opened current) (if_pos rfl) ?_ unfrozen),
        run, _, baseline, _, AList.lookup_insert _, captured, rfl, other⟩
      simp only [BashRuns.withCall, BashRuns.withRecord, RunTable.get, AList.lookup_insert]
  | _ => exact absurd trivial early

namespace Sample

def runOne : RunId := "run_1".toList

def startedRun : List RunEvent :=
  [.enter 0, .reconcile 0 .calm, .capture 0, .insert 0 runOne 2, .evict 0,
    .execute runOne (.processStarted 3 none 77),
    .world (.disk (noteDisk.after [overwriting])), .world (.observe [note.join]),
    .execute runOne (.processEnded 6 none (.exited (some 0) true))]

def reconcileAtSeven : ReconcileIo := { ReconcileIo.calm with now := 7, timestamp := 7 }

def ownWindow : List RunEvent :=
  startedRun ++ [.answer 0, .install 0, .settle 0 reconcileAtSeven false, .stamp 0, .window 0,
    .attributeSince 0 (fun _ => none), .freeze 0]

def polledFirst : List RunEvent :=
  startedRun ++ [.poll 1 runOne .status, .settle 1 reconcileAtSeven false, .stamp 1, .window 1,
    .attributeSince 1 (fun _ => none), .freeze 1]

end Sample

open Sample in
theorem frozen_since_captured_ownWindow :
    ∃ (s : BashRuns) (record : RunRecord) (changes : FrozenChanges),
      s.runs.lookup runOne = some record ∧ record.captured = some ⟨1, ∅⟩ ∧
      record.frozenChanges = some changes ∧ changes.paths = {note.text} ∧
      changes.ComputedIn Workspace.plain ∧ changes.window.baseline = ⟨1, ∅⟩ := by
  let guarded := fun (s : BashRuns) (event : RunEvent) =>
    if s.AfterInstall event then Workspace.plain.advanceRuns s event else none
  have facts : (ownWindow.foldlM guarded (.start (.opened .plain noteDisk))).any (fun s =>
      (s.runs.lookup runOne).any fun record => record.captured = some ⟨1, ∅⟩ ∧
        record.frozenChanges.any fun changes => changes.paths = {note.text}) = true := by
    decide +kernel
  obtain ⟨s, ran, facts⟩ := (Option.any_eq_true _ _).mp facts
  obtain ⟨record, here, facts⟩ := (Option.any_eq_true _ _).mp facts
  obtain ⟨captured, facts⟩ := of_decide_eq_true facts
  obtain ⟨changes, frozen, paths⟩ := (Option.any_eq_true _ _).mp facts
  refine ⟨s, record, changes, here, captured, frozen, of_decide_eq_true paths, ?_⟩
  exact frozen_since_captured .plain _ ownWindow s (Run.of_guarded_foldlM ran) runOne record
    ⟨1, ∅⟩ changes here captured frozen

open Sample in
theorem frozen_since_later_baseline :
    ∃ (s : BashRuns) (record : RunRecord) (changes : FrozenChanges),
      Run Workspace.plain.RunStep (.start (.opened .plain noteDisk)) polledFirst s ∧
      s.runs.lookup runOne = some record ∧ record.captured = some ⟨1, ∅⟩ ∧
      record.frozenChanges = some changes ∧ changes.window.baseline = ⟨2, ∅⟩ ∧
      changes.paths = ∅ ∧
      s.world.state.ledger.attributeSince .plain s.world.disk (fun _ => none)
        { changes.window with startGeneration := 1, baselineDirty := ∅ } = {note.text} := by
  have facts : (polledFirst.foldlM Workspace.plain.advanceRuns
      (.start (.opened .plain noteDisk))).any (fun s =>
        (s.runs.lookup runOne).any fun record => record.captured = some ⟨1, ∅⟩ ∧
          record.frozenChanges.any fun changes => changes.window.baseline = ⟨2, ∅⟩ ∧
            changes.paths = ∅ ∧
            s.world.state.ledger.attributeSince .plain s.world.disk (fun _ => none)
              { changes.window with startGeneration := 1, baselineDirty := ∅ } =
                {note.text}) = true := by
    decide +kernel
  obtain ⟨s, ran, facts⟩ := (Option.any_eq_true _ _).mp facts
  obtain ⟨record, here, facts⟩ := (Option.any_eq_true _ _).mp facts
  obtain ⟨captured, facts⟩ := of_decide_eq_true facts
  obtain ⟨changes, frozen, facts⟩ := (Option.any_eq_true _ _).mp facts
  exact ⟨s, record, changes, Run.of_foldlM ran, here, captured, frozen, of_decide_eq_true facts⟩

end CodeWeave
