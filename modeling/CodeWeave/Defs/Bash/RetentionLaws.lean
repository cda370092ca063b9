import CodeWeave.Defs.Bash.LifecycleLaws
import CodeWeave.Defs.Bash.Retention
import CodeWeave.Lib.Runs

namespace CodeWeave

open Runs Oldest

namespace RunTable

theorem endedBefore_iff (first second : Timestamp × Nat × RunId) :
    endedBefore first second = true ↔ first.1 < second.1 ∨ first.1 = second.1 ∧
      (first.2.1 < second.2.1 ∨ first.2.1 = second.2.1 ∧ first.2.2 ≤ second.2.2) := by
  simp [endedBefore]

theorem endedBefore_trans (first second third : Timestamp × Nat × RunId)
    (before : endedBefore first second = true) (before' : endedBefore second third = true) :
    endedBefore first third = true := by
  rw [endedBefore_iff] at before before' ⊢
  rcases before with earlier | ⟨same, earlier | ⟨same', le⟩⟩
  · rcases before' with after | ⟨eq, -⟩
    · exact .inl (Nat.lt_trans earlier after)
    · exact .inl (eq ▸ earlier)
  · rcases before' with after | ⟨eq, after | ⟨eq', -⟩⟩
    · exact .inl (same ▸ after)
    · exact .inr ⟨same.trans eq, .inl (Nat.lt_trans earlier after)⟩
    · exact .inr ⟨same.trans eq, .inl (eq' ▸ earlier)⟩
  · rcases before' with after | ⟨eq, after | ⟨eq', le'⟩⟩
    · exact .inl (same ▸ after)
    · exact .inr ⟨same.trans eq, .inl (same' ▸ after)⟩
    · exact .inr ⟨same.trans eq, .inr ⟨same'.trans eq', le_trans le le'⟩⟩

theorem endedBefore_total (first second : Timestamp × Nat × RunId) :
    (endedBefore first second || endedBefore second first) = true := by
  rw [Bool.or_eq_true, endedBefore_iff, endedBefore_iff]
  rcases Nat.lt_trichotomy first.1 second.1 with earlier | same | later
  · exact .inl (.inl earlier)
  · rcases Nat.lt_trichotomy first.2.1 second.2.1 with earlier | same' | later
    · exact .inl (.inr ⟨same, .inl earlier⟩)
    · rcases le_total first.2.2 second.2.2 with le | le
      · exact .inl (.inr ⟨same, .inr ⟨same', le⟩⟩)
      · exact .inr (.inr ⟨same.symm, .inr ⟨same'.symm, le⟩⟩)
    · exact .inr (.inr ⟨same.symm, .inl later⟩)
  · exact .inr (.inl later)

theorem endedBefore_antisymm (first second : Timestamp × Nat × RunId)
    (before : endedBefore first second = true) (before' : endedBefore second first = true) :
    first = second := by
  rw [endedBefore_iff] at before before'
  have le : first.1 ≤ second.1 := before.elim Nat.le_of_lt fun same => Nat.le_of_eq same.1
  have le' : second.1 ≤ first.1 := before'.elim Nat.le_of_lt fun same => Nat.le_of_eq same.1
  have same : first.1 = second.1 := Nat.le_antisymm le le'
  have ids := (before.resolve_left (same ▸ Nat.lt_irrefl _)).2
  have ids' := (before'.resolve_left (same ▸ Nat.lt_irrefl _)).2
  rcases ids with earlier | ⟨same', le⟩
  · rcases ids' with later | ⟨same', -⟩
    · exact absurd later (Nat.lt_asymm earlier)
    · exact absurd earlier (same' ▸ Nat.lt_irrefl _)
  · have le' := (ids'.resolve_left (same' ▸ Nat.lt_irrefl _)).2
    exact Prod.ext same (Prod.ext same' (le_antisymm le le'))

theorem le_of_endedBefore {first second : Timestamp × Nat × RunId}
    (before : endedBefore first second = true) : first.1 ≤ second.1 := by
  rcases (endedBefore_iff first second).mp before with earlier | ⟨same, -⟩
  · exact Nat.le_of_lt earlier
  · exact Nat.le_of_eq same

end RunTable

namespace Retention

inductive Moves (retain : Nat) (s : Retention) : RetentionStep → Retention → Prop
  | within {run : RunId} {sequence : Nat} {now : Timestamp} (fresh : s.records.lookup run = none)
    (room : s.runs.length < retain) : Moves retain s (.enter run sequence now) { s with
      records := s.records.insert run (.queued run sequence now none)
      runs := s.runs ++ [run], latest := some run, activeAtRead := 0 }
  | beyond {run : RunId} {sequence : Nat} {now : Timestamp} (fresh : s.records.lookup run = none)
    (full : retain ≤ s.runs.length) : Moves retain s (.enter run sequence now) { s with
      records := s.records.insert run (.queued run sequence now none)
      runs := s.runs ++ [run], latest := some run, activeAtRead := 0
      inserts := s.inserts.insert run (.snapshot (s.runs ++ [run])) }
  | read {insert run : RunId} {call : InsertCall} {record : RunRecord}
    (pending : s.inserts.lookup insert = some call) (known : s.records.lookup run = some record)
    (unread : run ∈ call.unread) : Moves retain s (.read insert run) { s with
      inserts := s.inserts.insert insert (call.read run record)
      activeAtRead := if s.latest = some insert ∧ call.unread = call.copied then s.active.length
        else s.activeAtRead }
  | remove {insert : RunId} {call : InsertCall} (pending : s.inserts.lookup insert = some call)
    (done : call.unread = []) : Moves retain s (.remove insert) { s with
      runs := s.runs.filter fun run => run ∉ call.picks retain
      inserts := s.inserts.erase insert }
  | transition {run : RunId} {next : RunStatus} {now : Timestamp} {record : RunRecord}
    (known : s.records.lookup run = some record)
    (later : (record.transition now next).2.endedAt = record.endedAt ∨ s.EndsBefore now) :
    Moves retain s (.transition run next now)
      { s with records := s.records.insert run (record.transition now next).2 }

variable {retain : Nat} {s s' : Retention} {move : RetentionStep}

theorem moves_of_step (h : s.step retain move = some s') : Moves retain s move s' := by
  cases move with
  | enter run sequence now =>
    rw [Retention.step] at h
    split at h
    · next fresh =>
      simp only [List.length_append, List.length_singleton] at h
      split at h
      · next room =>
        cases h
        exact .within fresh room
      · next full =>
        cases h
        exact .beyond fresh (by omega)
    · cases h
  | read insert run =>
    rw [Retention.step] at h
    split at h
    · next call record pending known =>
      split at h
      · next unread =>
        cases h
        exact .read pending known unread
      · cases h
    · cases h
  | remove insert =>
    rw [Retention.step] at h
    split at h
    · cases h
    · next call pending =>
      split at h
      · next done =>
        cases h
        exact .remove pending done
      · cases h
  | transition run next now =>
    rw [Retention.step] at h
    split at h
    · cases h
    · next record known =>
      dsimp only at h
      split at h
      · next later =>
        cases h
        exact .transition known later
      · cases h

theorem endOf_of_lookup {run : RunId} {record : RunRecord}
    (known : s.records.lookup run = some record) : s.endOf run = record.endedAt := by
  rw [endOf, known]
  rfl

theorem known_of_endOf {run : RunId} {ended : Timestamp} (isOver : s.endOf run = some ended) :
    run ∈ s.records := by
  rw [endOf] at isOver
  obtain ⟨record, found, -⟩ := Option.bind_eq_some_iff.mp isOver
  exact AList.lookup_isSome.mp (by rw [found]; rfl)

structure Later (s s' : Retention) : Prop where
  known : ∀ run ∈ s.records, run ∈ s'.records
  kept : ∀ run ended, s.endOf run = some ended → s'.endOf run = some ended
  fresh : ∀ run ended, s'.endOf run = some ended → s.endOf run = some ended ∨
    (∀ other before, s.endOf other = some before → before < ended) ∧
      ∀ other, other ≠ run → s'.endOf other = s.endOf other

def Final (s : Retention) : Prop :=
  ∀ run record, s.records.lookup run = some record → record.endedAt.isSome →
    record.status.isTerminal = true

theorem Later.of_records (same : s'.records = s.records) : Later s s' where
  known run := by rw [same]; exact id
  kept run ended := by rw [endOf, endOf, same]; exact id
  fresh run ended := by rw [endOf, endOf, same]; exact .inl

theorem endOf_of_insert {run : RunId} {record : RunRecord}
    (records : s'.records = s.records.insert run record) (other : RunId) :
    s'.endOf other = if other = run then record.endedAt else s.endOf other := by
  rw [endOf, endOf, records]
  by_cases same : other = run
  · rw [if_pos same, same, AList.lookup_insert]
    rfl
  · rw [if_neg same, AList.lookup_insert_ne same]

theorem Final.of_insert (final : s.Final) {run : RunId} {record : RunRecord}
    (own : record.endedAt.isSome → record.status.isTerminal = true)
    (records : s'.records = s.records.insert run record) : s'.Final := by
  intro other found here isOver
  rw [records] at here
  by_cases same : other = run
  · rw [same, AList.lookup_insert] at here
    cases here
    exact own isOver
  · rw [AList.lookup_insert_ne same] at here
    exact final other found here isOver

theorem endOf_of_enter {run : RunId} {sequence : Nat} {now : Timestamp}
    (fresh : s.records.lookup run = none)
    (records : s'.records = s.records.insert run (.queued run sequence now none))
    (other : RunId) : s'.endOf other = s.endOf other := by
  rw [endOf_of_insert records]
  split
  · next own =>
    rw [own, endOf, fresh]
    rfl
  · rfl

theorem Later.of_enter {run : RunId} {sequence : Nat} {now : Timestamp}
    (fresh : s.records.lookup run = none)
    (records : s'.records = s.records.insert run (.queued run sequence now none)) : Later s s' := by
  have same := endOf_of_enter fresh records
  refine ⟨fun other mem => ?_, fun other ended isOver => (same other).trans isOver,
    fun other ended isOver => .inl ((same other).symm.trans isOver)⟩
  rw [records]
  exact (AList.mem_insert _).mpr (.inr mem)

theorem endedAt_transition (record : RunRecord) (now : Timestamp) (next : RunStatus) :
    (record.transition now next).2.endedAt = record.endedAt ∨
      (record.transition now next).2.endedAt = some now ∧
        (record.transition now next).2.status.isTerminal = true := by
  rw [RunRecord.transition]
  split
  · dsimp only
    split
    · next terminal => exact .inr ⟨rfl, terminal⟩
    · exact .inl rfl
  · exact .inl rfl

theorem transition_of_ended {record : RunRecord}
    (final : record.endedAt.isSome → record.status.isTerminal = true)
    (isOver : record.endedAt.isSome) (now : Timestamp) (next : RunStatus) :
    record.transition now next = (false, record) :=
  record.transition_of_not now (RunStatus.not_canBecome_of_isTerminal (final isOver) next)

theorem Later.of_transition {run : RunId} {next : RunStatus} {now : Timestamp}
    {record : RunRecord} (final : s.Final) (known : s.records.lookup run = some record)
    (later : (record.transition now next).2.endedAt = record.endedAt ∨ s.EndsBefore now)
    (records : s'.records = s.records.insert run (record.transition now next).2) : Later s s' := by
  have here := endOf_of_lookup known
  refine ⟨fun other mem => ?_, fun other ended isOver => ?_, fun other ended isOver => ?_⟩
  · rw [records]
    exact (AList.mem_insert _).mpr (.inr mem)
  · rw [endOf_of_insert records]
    split
    · next own =>
      rw [own, here] at isOver
      rw [transition_of_ended (final run record known) (by rw [isOver]; rfl)]
      exact isOver
    · exact isOver
  · rw [endOf_of_insert records] at isOver
    split at isOver
    · next own =>
      subst own
      rcases endedAt_transition record now next with unchanged | ⟨ends, -⟩
      · exact .inl (here.trans (unchanged.symm.trans isOver))
      · obtain rfl := Option.some.inj (ends.symm.trans isOver)
        rcases later with unchanged | after
        · exact .inl (here.trans (unchanged.symm.trans isOver))
        · refine .inr ⟨fun earlier before isOver => ?_, fun earlier other => ?_⟩
          · exact after earlier (AList.mem_keys.mp (known_of_endOf isOver)) before isOver
          · rw [endOf_of_insert records, if_neg other]
    · exact .inl isOver

theorem Moves.later (final : s.Final) (moves : Moves retain s move s') : Later s s' := by
  cases moves with
  | read | remove => exact .of_records rfl
  | within fresh | beyond fresh => exact .of_enter fresh rfl
  | transition known later => exact .of_transition final known later rfl

theorem Moves.final (final : s.Final) (moves : Moves retain s move s') : s'.Final := by
  cases moves with
  | read | remove => exact final
  | within | beyond => exact final.of_insert (fun isOver => by cases isOver) rfl
  | @transition run next now record known =>
    refine final.of_insert (fun isOver => ?_) rfl
    rcases endedAt_transition record now next with unchanged | ⟨-, terminal⟩
    · rw [unchanged] at isOver
      rw [transition_of_ended (final run record known) isOver]
      exact final run record known isOver
    · exact terminal

def Distinct (s : Retention) : Prop :=
  ∀ first second ended, s.endOf first = some ended → s.endOf second = some ended → first = second

theorem Later.distinct (later : Later s s') (distinct : s.Distinct) : s'.Distinct := by
  intro first second ended isOver isOver'
  rcases later.fresh first ended isOver with old | ⟨after, others⟩
  · rcases later.fresh second ended isOver' with old' | ⟨after, -⟩
    · exact distinct first second ended old old'
    · exact absurd (after first ended old) (Nat.lt_irrefl _)
  · by_contra differ
    have old' := isOver'
    rw [others second (Ne.symm differ)] at old'
    exact absurd (after second ended old') (Nat.lt_irrefl _)

structure Collects (retain : Nat) (s : Retention) (call : InsertCall) : Prop where
  distinct : call.copied.Nodup
  known : ∀ run ∈ call.copied, run ∈ s.records
  beyond : retain < call.copied.length
  unread : call.unread ⊆ call.copied
  once : call.seen.Nodup
  ended : ∀ item ∈ call.ended, s.endOf item.2.2 = some item.1 ∧ item.2.2 ∈ call.copied

structure Kept (retain : Nat) (s : Retention) : Prop where
  final : s.Final
  distinct : s.Distinct
  once : s.runs.Nodup
  known : ∀ run ∈ s.runs, run ∈ s.records
  retained : ∀ run ∈ s.records, s.endOf run = none → run ∈ s.runs
  inserted : ∀ insert call, s.inserts.lookup insert = some call → insert ∈ s.records
  calls : ∀ insert call, s.inserts.lookup insert = some call → Collects retain s call

theorem Collects.later {call : InsertCall} (collects : Collects retain s call)
    (later : Later s s') : Collects retain s' call where
  distinct := collects.distinct
  known run mem := later.known run (collects.known run mem)
  beyond := collects.beyond
  unread := collects.unread
  once := collects.once
  ended item mem := ⟨later.kept _ _ (collects.ended item mem).1, (collects.ended item mem).2⟩

theorem seen_read_perm {call : InsertCall} {run : RunId} (record : RunRecord)
    (unread : run ∈ call.unread) :
    ((call.read run record).seen ++ if record.endedAt.isSome then [] else [run]).Perm
      call.seen := by
  have split : call.seen.Perm (run :: (call.unread.erase run ++ call.collected)) :=
    (List.perm_cons_erase unread).append_right call.collected
  cases isOver : record.endedAt with
  | none =>
    simp only [InsertCall.seen, InsertCall.read, InsertCall.collected, isOver, Option.isSome_none,
      Bool.false_eq_true, if_false]
    exact (List.perm_append_singleton _ _).trans split.symm
  | some ended =>
    simp only [InsertCall.seen, InsertCall.read, InsertCall.collected, isOver, Option.isSome_some,
      if_true, List.append_nil, List.map_append, List.map_cons, List.map_nil, ← List.append_assoc]
    exact (List.perm_append_singleton _ _).trans split.symm

theorem Collects.read {call : InsertCall} (collects : Collects retain s call) {run : RunId}
    {record : RunRecord} (known : s.records.lookup run = some record)
    (unread : run ∈ call.unread) : Collects retain s (call.read run record) where
  distinct := collects.distinct
  known := collects.known
  beyond := collects.beyond
  unread := List.Subset.trans List.erase_subset collects.unread
  once := ((seen_read_perm record unread).nodup_iff.mpr collects.once).of_append_left
  ended item mem := by
    rw [InsertCall.read] at mem
    dsimp only at mem
    split at mem
    · exact collects.ended item mem
    · next ended isOver =>
      rcases List.mem_append.mp mem with before | new
      · exact collects.ended item before
      · rw [List.mem_singleton.mp new]
        exact ⟨(endOf_of_lookup known).trans isOver, collects.unread unread⟩

theorem collected_ended {call : InsertCall} (collects : Collects retain s call) {run : RunId}
    (mem : run ∈ call.collected) : ∃ ended, s.endOf run = some ended := by
  obtain ⟨item, among, rfl⟩ := List.mem_map.mp mem
  exact ⟨item.1, (collects.ended item among).1⟩

theorem mem_collected_of_picks {call : InsertCall} {run : RunId}
    (picked : run ∈ call.picks retain) : run ∈ call.collected := by
  obtain ⟨item, among, rfl⟩ := List.mem_map.mp picked
  exact List.mem_map_of_mem ((oldest_subperm _ _ _).subset among)

theorem Kept.runs_enter (kept : Kept retain s) {run : RunId}
    (fresh : s.records.lookup run = none) : (s.runs ++ [run]).Nodup := by
  have absent : run ∉ s.runs := fun mem =>
    AList.lookup_eq_none.mp fresh (kept.known run mem)
  exact List.nodup_append.mpr ⟨kept.once, List.nodup_singleton _,
    fun other mem _ single same => absent (List.mem_singleton.mp single ▸ same ▸ mem)⟩

theorem Kept.snapshot (kept : Kept retain s) (later : Later s s') {run : RunId}
    (fresh : s.records.lookup run = none) (entered : run ∈ s'.records)
    (full : retain ≤ s.runs.length) : Collects retain s' (.snapshot (s.runs ++ [run])) where
  distinct := kept.runs_enter fresh
  known other mem := by
    rcases List.mem_append.mp mem with before | new
    · exact later.known other (kept.known other before)
    · rwa [List.mem_singleton.mp new]
  beyond := by
    rw [InsertCall.snapshot, List.length_append, List.length_singleton]
    omega
  unread := List.Subset.refl _
  once := by
    rw [InsertCall.seen, InsertCall.snapshot, InsertCall.collected, List.map_nil, List.append_nil]
    exact kept.runs_enter fresh
  ended item mem := absurd mem List.not_mem_nil

theorem Kept.ended_of_removed (kept : Kept retain s) {insert : RunId} {call : InsertCall}
    (pending : s.inserts.lookup insert = some call) {run : RunId}
    (picked : run ∈ call.picks retain) : ∃ ended, s.endOf run = some ended :=
  collected_ended (kept.calls insert call pending) (mem_collected_of_picks picked)

theorem Kept.of_enter (kept : Kept retain s) {run : RunId} {sequence : Nat} {now : Timestamp}
    (fresh : s.records.lookup run = none)
    (records : s'.records = s.records.insert run (.queued run sequence now none))
    (runs : s'.runs = s.runs ++ [run])
    (calls : ∀ insert call, s'.inserts.lookup insert = some call →
      insert = run ∧ call = .snapshot (s.runs ++ [run]) ∧ retain ≤ s.runs.length ∨
        s.inserts.lookup insert = some call) : Kept retain s' := by
  have later : Later s s' := .of_enter fresh records
  have entered : run ∈ s'.records := by
    rw [records]
    exact (AList.mem_insert _).mpr (.inl rfl)
  refine ⟨kept.final.of_insert (fun isOver => by cases isOver) records,
    later.distinct kept.distinct, ?_, fun other mem => ?_, fun other mem active => ?_,
    fun insert call found => ?_, fun insert call found => ?_⟩
  · rw [runs]
    exact kept.runs_enter fresh
  · rw [runs] at mem
    rcases List.mem_append.mp mem with before | new
    · exact later.known other (kept.known other before)
    · rwa [List.mem_singleton.mp new]
  · rw [runs]
    rw [records, AList.mem_insert] at mem
    rcases mem with rfl | before
    · exact List.mem_append_right _ (List.mem_singleton_self _)
    · refine List.mem_append_left _ (kept.retained other before ?_)
      cases isOver : s.endOf other with
      | none => rfl
      | some ended => exact absurd (later.kept other ended isOver) (by rw [active]; exact nofun)
  · rcases calls insert call found with ⟨rfl, -, -⟩ | before
    · exact entered
    · exact later.known insert (kept.inserted insert call before)
  · rcases calls insert call found with ⟨-, rfl, full⟩ | before
    · exact kept.snapshot later fresh entered full
    · exact (kept.calls insert call before).later later

theorem Kept.step (kept : Kept retain s) (moves : Moves retain s move s') : Kept retain s' := by
  have later := moves.later kept.final
  have final := moves.final kept.final
  have distinct := later.distinct kept.distinct
  cases moves with
  | within fresh => exact kept.of_enter fresh rfl rfl fun _ _ found => .inr found
  | @beyond run _ _ fresh full =>
    refine kept.of_enter fresh rfl rfl fun insert call found => ?_
    by_cases same : insert = run
    · subst same
      rw [AList.lookup_insert] at found
      exact .inl ⟨rfl, (Option.some.inj found).symm, full⟩
    · rw [AList.lookup_insert_ne same] at found
      exact .inr found
  | @read insert run call record pending known unread =>
    refine ⟨final, distinct, kept.once, kept.known, kept.retained, fun other found look => ?_,
      fun other found look => ?_⟩
    · by_cases same : other = insert
      · rw [same]
        exact kept.inserted insert call pending
      · rw [AList.lookup_insert_ne same] at look
        exact kept.inserted other found look
    · by_cases same : other = insert
      · subst same
        rw [AList.lookup_insert] at look
        obtain rfl := Option.some.inj look
        exact ((kept.calls other call pending).read known unread).later later
      · rw [AList.lookup_insert_ne same] at look
        exact (kept.calls other found look).later later
  | @remove insert call pending done =>
    have before (other : RunId) (found : InsertCall)
        (look : (s.inserts.erase insert).lookup other = some found) :
        s.inserts.lookup other = some found := by
      by_cases same : other = insert
      · rw [same, AList.lookup_erase] at look
        cases look
      · rwa [AList.lookup_erase_ne same] at look
    refine ⟨final, distinct, kept.once.filter _, fun run mem => ?_, fun run mem active => ?_,
      fun other found look => ?_, fun other found look => ?_⟩
    · exact kept.known run (List.mem_of_mem_filter mem)
    · refine List.mem_filter.mpr ⟨kept.retained run mem active, decide_eq_true fun picked => ?_⟩
      obtain ⟨ended, isOver⟩ := kept.ended_of_removed pending picked
      exact absurd (active.symm.trans isOver) nofun
    · exact kept.inserted other found (before other found look)
    · exact (kept.calls other found (before other found look)).later later
  | @transition run next now record known after =>
    refine ⟨final, distinct, kept.once, fun other mem => later.known other (kept.known other mem),
      fun other mem active => ?_,
      fun other found look => later.known other (kept.inserted other found look),
      fun other found look => (kept.calls other found look).later later⟩
    have before : other ∈ s.records := by
      rcases (AList.mem_insert _).mp mem with rfl | before
      · exact AList.lookup_isSome.mp (by rw [known]; rfl)
      · exact before
    refine kept.retained other before ?_
    cases isOver : s.endOf other with
    | none => rfl
    | some ended => exact absurd (active.symm.trans (later.kept other ended isOver)) nofun

def endedEarlier (s : Retention) (time : Timestamp) (run : RunId) : Bool :=
  (s.endOf run).any (· < time)

/-- An insert reckons with the runs that ended before this time: it has as many of them in sight
as it removes, or it has all of them in sight but those it did not copy that are gone. -/
def Reckons (retain : Nat) (s : Retention) (call : InsertCall) (time : Timestamp) : Prop :=
  call.copied.length - retain ≤ (call.seen.filter (s.endedEarlier time)).length ∨
    ∀ run ∈ s.records.keys, s.endedEarlier time run = true →
      run ∈ call.seen ∨ (run ∉ call.copied ∧ run ∉ s.runs)

instance (retain : Nat) (s : Retention) (call : InsertCall) (time : Timestamp) :
    Decidable (Reckons retain s call time) := inferInstanceAs (Decidable (_ ∨ _))

/-- An insert that reads a record that has ended reckons with the runs that ended before. -/
def Fair (retain : Nat) (s : Retention) : RetentionStep → Prop
  | .read insert run => ∀ call ∈ s.inserts.lookup insert, ∀ ended ∈ s.endOf run,
      Reckons retain s call ended
  | _ => True

instance (retain : Nat) (s : Retention) (move : RetentionStep) :
    Decidable (Fair retain s move) := by
  cases move with
  | read insert run =>
    exact inferInstanceAs (Decidable (∀ call ∈ s.inserts.lookup insert, ∀ ended ∈ s.endOf run,
      Reckons retain s call ended))
  | _ => exact inferInstanceAs (Decidable True)

/-- What is removed has ended before all that is left, and each insert reckons with what ended
before the runs it has collected. -/
structure Orderly (retain : Nat) (s : Retention) : Prop where
  evicted : ∀ run ∈ s.records, run ∉ s.runs → ∀ left ∈ s.runs, ∀ ended later,
    s.endOf run = some ended → s.endOf left = some later → ended < later
  reckoned : ∀ insert call, s.inserts.lookup insert = some call → ∀ item ∈ call.ended,
    Reckons retain s call item.1

theorem endedEarlier_iff {time : Timestamp} {run : RunId} :
    s.endedEarlier time run = true ↔ ∃ ended, s.endOf run = some ended ∧ ended < time := by
  simp [endedEarlier, Option.any_eq_true]

theorem Later.endedEarlier (later : Later s s') {first : RunId} {time : Timestamp}
    (isOver : s.endOf first = some time) (run : RunId) :
    s'.endedEarlier time run = s.endedEarlier time run := by
  rw [Bool.eq_iff_iff, endedEarlier_iff, endedEarlier_iff]
  constructor
  · rintro ⟨ended, here, before⟩
    rcases later.fresh run ended here with old | ⟨after, -⟩
    · exact ⟨ended, old, before⟩
    · exact absurd (after first time isOver) (Nat.lt_asymm before)
  · rintro ⟨ended, here, before⟩
    exact ⟨ended, later.kept run ended here, before⟩

theorem Reckons.later {call call' : InsertCall} {first : RunId} {time : Timestamp}
    (reckons : Reckons retain s call time) (isOver : s.endOf first = some time)
    (later : Later s s') (copied : call'.copied = call.copied)
    (seen : (call'.seen.filter (s.endedEarlier time)).Perm (call.seen.filter (s.endedEarlier time)))
    (runs : ∀ run ∈ s.records, s.endedEarlier time run = true → run ∈ s'.runs → run ∈ s.runs) :
    Reckons retain s' call' time := by
  have same : s'.endedEarlier time = s.endedEarlier time :=
    funext fun run => later.endedEarlier isOver run
  rw [Reckons, copied, same, seen.length_eq]
  refine reckons.imp_right fun all run _ earlier => ?_
  obtain ⟨ended, here, -⟩ := endedEarlier_iff.mp earlier
  have known := known_of_endOf here
  rcases all run (AList.mem_keys.mp known) earlier with among | ⟨uncopied, gone⟩
  · exact .inl (List.mem_of_mem_filter (seen.mem_iff.mpr (List.mem_filter.mpr ⟨among, earlier⟩)))
  · exact .inr ⟨uncopied, fun mem => gone (runs run known earlier mem)⟩

section

variable {insert : RunId} {call : InsertCall} (kept : Kept retain s) (orderly : Orderly retain s)
  (pending : s.inserts.lookup insert = some call) (done : call.unread = [])

include kept orderly pending done

theorem picked_of_earlier {run earlier : RunId} (picked : run ∈ call.picks retain)
    {ended before : Timestamp} (isOver : s.endOf run = some ended)
    (isOver' : s.endOf earlier = some before) (order : before < ended)
    (inSight : earlier ∈ call.copied ∨ earlier ∈ s.runs) : earlier ∈ call.picks retain := by
  obtain ⟨item, among, rfl⟩ := List.mem_map.mp picked
  have collects := kept.calls insert call pending
  have mem := (oldest_subperm _ _ _).subset among
  obtain rfl := Option.some.inj (isOver.symm.trans (collects.ended item mem).1)
  have seen : call.seen = call.collected := by rw [InsertCall.seen, done, List.nil_append]
  rcases orderly.reckoned insert call pending item mem with enough | all
  · -- As many as are removed come before it, so it is not removed.
    have fewer := length_before_lt RunTable.endedBefore_trans RunTable.endedBefore_total among
    rw [seen, InsertCall.collected, List.filter_map, List.length_map] at enough
    have sub : (call.ended.filter (s.endedEarlier item.1 ∘ fun other => other.2.2)).length ≤
        (call.ended.filter fun other => !RunTable.endedBefore item other).length := by
      rw [← List.countP_eq_length_filter, ← List.countP_eq_length_filter]
      refine List.countP_mono_left fun other mem' early => ?_
      obtain ⟨time, at_end, order⟩ := endedEarlier_iff.mp early
      obtain rfl := Option.some.inj (at_end.symm.trans (collects.ended other mem').1)
      rw [Bool.not_eq_true', Bool.eq_false_iff]
      exact fun after => absurd (RunTable.le_of_endedBefore after) (Nat.not_le.mpr order)
    omega
  · have earlierThan : s.endedEarlier item.1 earlier = true :=
      endedEarlier_iff.mpr ⟨before, isOver', order⟩
    have known := AList.mem_keys.mp (known_of_endOf isOver')
    rcases all earlier known earlierThan with here | ⟨uncopied, gone⟩
    · rw [seen] at here
      obtain ⟨other, mem', rfl⟩ := List.mem_map.mp here
      obtain rfl := Option.some.inj (isOver'.symm.trans (collects.ended other mem').1)
      by_contra out
      have left : other ∉ oldest RunTable.endedBefore (call.copied.length - retain) call.ended :=
        fun taken => out (List.mem_map_of_mem taken)
      have le := le_of_not_mem_oldest RunTable.endedBefore_trans RunTable.endedBefore_total among
        mem' left
      exact absurd (RunTable.le_of_endedBefore le) (Nat.not_le.mpr order)
    · exact absurd inSight (not_or.mpr ⟨uncopied, gone⟩)

theorem ended_before_left {run left : RunId} (picked : run ∈ call.picks retain)
    (mem : left ∈ s.runs) (kept_left : left ∉ call.picks retain) {ended later : Timestamp}
    (isOver : s.endOf run = some ended) (isOver' : s.endOf left = some later) : ended < later := by
  by_contra order
  have differ : later ≠ ended := by
    rintro rfl
    exact kept_left (kept.distinct run left later isOver isOver' ▸ picked)
  exact kept_left (picked_of_earlier kept orderly pending done picked isOver isOver'
    (lt_of_le_of_ne (Nat.not_lt.mp order) differ) (.inr mem))

theorem retain_le_of_removed {run : RunId} (mem : run ∈ s.runs)
    (picked : run ∈ call.picks retain) :
    retain ≤ (s.runs.filter fun run => run ∉ call.picks retain).length := by
  have collects := kept.calls insert call pending
  obtain ⟨ended, isOver⟩ := kept.ended_of_removed pending picked
  -- What others have removed of the copy ended before this run, so it is among the picks.
  have sub : (call.copied.filter fun run => run ∉ call.picks retain) ⊆
      s.runs.filter fun run => run ∉ call.picks retain := by
    intro other among
    obtain ⟨copied, out⟩ := List.mem_filter.mp among
    refine List.mem_filter.mpr ⟨?_, out⟩
    by_contra gone
    cases isOver' : s.endOf other with
    | none => exact gone (kept.retained other (collects.known other copied) isOver')
    | some before =>
      have order := orderly.evicted other (collects.known other copied) gone run mem before ended
        isOver' isOver
      exact of_decide_eq_true out (picked_of_earlier kept orderly pending done picked isOver isOver'
        order (.inl copied))
  have few : (call.picks retain).length ≤ call.copied.length - retain := by
    rw [InsertCall.picks, List.length_map, length_oldest]
    exact Nat.min_le_left _ _
  have taken : (call.copied.filter fun run => run ∈ call.picks retain).length ≤
      (call.picks retain).length :=
    (List.subperm_of_subset (collects.distinct.filter _)
      fun other among => of_decide_eq_true (List.mem_filter.mp among).2).length_le
  have split := List.length_eq_length_filter_add (l := call.copied)
    fun run => decide (run ∈ call.picks retain)
  have left := (List.subperm_of_subset (collects.distinct.filter _) sub).length_le
  have beyond := collects.beyond
  simp only [decide_not] at left ⊢
  omega

end

theorem filter_seen_read {call : InsertCall} {run : RunId} {record : RunRecord}
    (known : s.records.lookup run = some record) (unread : run ∈ call.unread)
    (time : Timestamp) : ((call.read run record).seen.filter (s.endedEarlier time)).Perm
      (call.seen.filter (s.endedEarlier time)) := by
  have perm := (seen_read_perm record unread).filter (s.endedEarlier time)
  rw [List.filter_append] at perm
  cases isOver : record.endedAt with
  | none =>
    have active : s.endedEarlier time run = false := by
      rw [endedEarlier, endOf_of_lookup known, isOver]
      rfl
    simpa [isOver, active] using perm
  | some ended => simpa [isOver] using perm

theorem Orderly.of_enter (kept : Kept retain s) (orderly : Orderly retain s) {run : RunId}
    {sequence : Nat} {now : Timestamp} (fresh : s.records.lookup run = none)
    (records : s'.records = s.records.insert run (.queued run sequence now none))
    (runs : s'.runs = s.runs ++ [run])
    (calls : ∀ insert call, s'.inserts.lookup insert = some call →
      call.ended = [] ∨ s.inserts.lookup insert = some call) : Orderly retain s' := by
  have ends := endOf_of_enter fresh records
  have absent (other : RunId) (mem : other ∈ s.records) : other ≠ run :=
    fun same => AList.lookup_eq_none.mp fresh (same ▸ mem)
  constructor
  · intro other mem gone left among ended later isOver isOver'
    rw [ends] at isOver isOver'
    rw [runs] at gone among
    refine orderly.evicted other (known_of_endOf isOver) (fun here => gone ?_) left ?_ ended later
      isOver isOver'
    · exact List.mem_append_left _ here
    · refine (List.mem_append.mp among).resolve_right fun new => ?_
      exact absent left (known_of_endOf isOver') (List.mem_singleton.mp new)
  · intro insert call found item mem
    rcases calls insert call found with none | before
    · rw [none] at mem
      cases mem
    · refine (orderly.reckoned insert call before item mem).later
        ((kept.calls insert call before).ended item mem).1 (.of_enter fresh records) rfl (.refl _)
        fun other known _ here => ?_
      rw [runs] at here
      refine (List.mem_append.mp here).resolve_right fun new => ?_
      exact absent other known (List.mem_singleton.mp new)

theorem Orderly.step (kept : Kept retain s) (orderly : Orderly retain s)
    (fair : Fair retain s move) (moves : Moves retain s move s') : Orderly retain s' := by
  have after := moves.later kept.final
  cases moves with
  | within fresh => exact orderly.of_enter kept fresh rfl rfl fun _ _ found => .inr found
  | @beyond run _ _ fresh full =>
    refine orderly.of_enter kept fresh rfl rfl fun insert call found => ?_
    by_cases same : insert = run
    · subst same
      rw [AList.lookup_insert] at found
      rw [← Option.some.inj found]
      exact .inl rfl
    · rw [AList.lookup_insert_ne same] at found
      exact .inr found
  | @read insert run call record pending known unread =>
    refine ⟨orderly.evicted, fun other found look item mem => ?_⟩
    by_cases same : other = insert
    · subst same
      rw [AList.lookup_insert] at look
      obtain rfl := Option.some.inj look
      have reckons : Reckons retain s call item.1 ∧ ∃ first, s.endOf first = some item.1 := by
        have collects := kept.calls other call pending
        rw [InsertCall.read] at mem
        dsimp only at mem
        split at mem
        · exact ⟨orderly.reckoned other call pending item mem, _, (collects.ended item mem).1⟩
        · next ended isOver =>
          rcases List.mem_append.mp mem with before | new
          · exact ⟨orderly.reckoned other call pending item before, _,
              (collects.ended item before).1⟩
          · rw [List.mem_singleton.mp new]
            have here := (endOf_of_lookup known).trans isOver
            exact ⟨fair call pending ended here, run, here⟩
      obtain ⟨reckons, first, isOver⟩ := reckons
      exact reckons.later isOver after rfl (filter_seen_read known unread item.1)
        fun _ _ _ here => here
    · rw [AList.lookup_insert_ne same] at look
      exact (orderly.reckoned other found look item mem).later
        ((kept.calls other found look).ended item mem).1 after rfl (.refl _) fun _ _ _ here => here
  | @remove insert call pending done =>
    refine ⟨fun run known gone left among ended later isOver isOver' => ?_,
      fun other found look item mem => ?_⟩
    · obtain ⟨mem, out⟩ := List.mem_filter.mp among
      by_cases here : run ∈ s.runs
      · have picked : run ∈ call.picks retain := by
          by_contra unpicked
          exact gone (List.mem_filter.mpr ⟨here, decide_eq_true unpicked⟩)
        exact ended_before_left kept orderly pending done picked mem (of_decide_eq_true out) isOver
          isOver'
      · exact orderly.evicted run known here left mem ended later isOver isOver'
    · by_cases same : other = insert
      · rw [same, AList.lookup_erase] at look
        cases look
      · rw [AList.lookup_erase_ne same] at look
        exact (orderly.reckoned other found look item mem).later
          ((kept.calls other found look).ended item mem).1 after rfl (.refl _)
          fun _ _ _ here => List.mem_of_mem_filter here
  | @transition run next now record known later =>
    refine ⟨fun other mem gone left among ended time isOver isOver' => ?_,
      fun insert call look item mem => ?_⟩
    · have before : other ∈ s.records := by
        rcases (AList.mem_insert _).mp mem with rfl | before
        · exact AList.lookup_isSome.mp (by rw [known]; rfl)
        · exact before
      cases ended_before : s.endOf other with
      | none => exact absurd (kept.retained other before ended_before) gone
      | some first =>
        obtain rfl := Option.some.inj ((after.kept other first ended_before).symm.trans isOver)
        rcases after.fresh left time isOver' with old | ⟨new, -⟩
        · exact orderly.evicted other before gone left among first time ended_before old
        · exact new other first ended_before
    · exact (orderly.reckoned insert call look item mem).later
        ((kept.calls insert call look).ended item mem).1 after rfl (.refl _) fun _ _ _ here => here

end Retention

end CodeWeave
