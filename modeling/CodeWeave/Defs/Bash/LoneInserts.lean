import CodeWeave.Defs.Bash.RetentionBounds

namespace CodeWeave

open Runs Oldest

def RunRecord.age (record : RunRecord) : Option Timestamp × Nat := (record.endedAt, record.sequence)

namespace Retention

variable {retain : Nat} {s s' t : Retention} {runs : RunTable}

def Holds (s : Retention) (runs : RunTable) : Prop :=
  ∀ run, (runs.lookup run).map RunRecord.age =
    if run ∈ s.runs then (s.records.lookup run).map RunRecord.age else none

def item (s : Retention) (run : RunId) : Option (Timestamp × Nat × RunId) :=
  (s.records.lookup run).bind fun record =>
    record.endedAt.map fun ended => (ended, record.sequence, run)

theorem Holds.keys_perm (holds : s.Holds runs) (kept : Kept retain s) :
    runs.keys.Perm s.runs := by
  refine (List.perm_ext_iff_of_nodup runs.keys_nodup kept.once).mpr fun run => ?_
  have same := congrArg Option.isSome (holds run)
  rw [Option.isSome_map] at same
  rw [← AList.mem_keys, ← AList.lookup_isSome, same]
  split
  · next mem =>
    rw [Option.isSome_map, AList.lookup_isSome]
    exact iff_of_true (kept.known run mem) mem
  · next out => exact iff_of_false (by simp) out

theorem Holds.ended_perm (holds : s.Holds runs) (kept : Kept retain s) :
    (runs.entries.filterMap fun entry => entry.2.endedAt.map fun ended =>
      (ended, entry.2.sequence, entry.1)).Perm (s.runs.filterMap s.item) := by
  refine List.Perm.trans (.of_eq ?_) ((holds.keys_perm kept).filterMap s.item)
  rw [AList.keys, List.keys, List.filterMap_map]
  refine List.filterMap_congr fun entry mem => ?_
  have found : runs.lookup entry.1 = some entry.2 := AList.mem_lookup_iff.mpr mem
  have here : entry.1 ∈ s.runs := by
    rw [← (holds.keys_perm kept).mem_iff, ← AList.mem_keys, ← AList.lookup_isSome, found]
    rfl
  obtain ⟨record, known⟩ := Option.isSome_iff_exists.mp
    (AList.lookup_isSome.mpr (kept.known _ here))
  have same := holds entry.1
  rw [if_pos here, found, known] at same
  obtain ⟨ended, sequence⟩ := Prod.ext_iff.mp (Option.some.inj same)
  dsimp only [RunRecord.age] at ended sequence
  rw [Function.comp_apply, item, known, Option.bind_some, ended, sequence]

theorem Holds.enter (holds : s.Holds runs) {run : RunId} {sequence : Nat} {now : Timestamp}
    {record : RunRecord} (age : record.age = (none, sequence))
    (enters : Goes retain s (.enter run sequence now) s') :
    s'.Holds (runs.insert run record) := by
  have entered : s'.records = s.records.insert run (.queued run sequence now none) ∧
      s'.runs = s.runs ++ [run] := by
    cases moves_of_step enters with
    | within | beyond => exact ⟨rfl, rfl⟩
  intro other
  rw [entered.1, entered.2]
  by_cases same : other = run
  · rw [same, AList.lookup_insert, AList.lookup_insert, if_pos (by simp), Option.map_some, age]
    rfl
  · rw [AList.lookup_insert_ne same, AList.lookup_insert_ne same, holds other]
    simp [same]

/-- The reads of one insert alone: nothing else changes, and of what it has not read it collects
what there was to collect. -/
structure Reading (insert : RunId) (s : Retention) (call : InsertCall) (t : Retention) : Prop where
  records : t.records = s.records
  runs : t.runs = s.runs
  pending : ∃ call', t.inserts.lookup insert = some call' ∧ call'.copied = call.copied ∧
    (call'.unread.filterMap s.item ++ call'.ended).Perm (call.unread.filterMap s.item ++ call.ended)

theorem item_perm_read {call : InsertCall} {run : RunId} {record : RunRecord}
    (known : s.records.lookup run = some record) (unread : run ∈ call.unread) :
    ((call.read run record).unread.filterMap s.item ++ (call.read run record).ended).Perm
      (call.unread.filterMap s.item ++ call.ended) := by
  have split := ((List.perm_cons_erase unread).filterMap s.item).append_right call.ended
  refine List.Perm.trans ?_ split.symm
  cases isOver : record.endedAt with
  | none =>
    have none : s.item run = none := by rw [item, known, Option.bind_some, isOver]; rfl
    rw [List.filterMap_cons_none none, InsertCall.read, isOver]
  | some ended =>
    have some : s.item run = some (ended, record.sequence, run) := by
      rw [item, known, Option.bind_some, isOver]
      rfl
    rw [List.filterMap_cons_some some, InsertCall.read, isOver]
    dsimp only
    rw [← List.append_assoc, List.cons_append]
    exact List.perm_append_singleton _ _

theorem Reading.of_reads {insert : RunId} {call : InsertCall} {order : List RunId}
    (pending : s.inserts.lookup insert = some call)
    (reads : Run (Goes retain) s (order.map (.read insert)) t) : Reading insert s call t := by
  have own : Run (Along (fun _ move => ∃ run, move = .read insert run) (Goes retain)) s
      (order.map (.read insert)) t := reads.along fun _ move mem => by
    obtain ⟨run, -, rfl⟩ := List.mem_map.mp mem
    exact ⟨run, rfl⟩
  refine own.invariant_along (Reading insert s call) ?_ ⟨rfl, rfl, call, pending, rfl, .refl _⟩
  rintro before _ after ⟨records, runs, call', look, copied, perm⟩ ⟨run, rfl⟩ step
  cases moves_of_step step with
  | @read _ _ found record pending' known unread =>
    obtain rfl := Option.some.inj (look.symm.trans pending')
    refine ⟨records, runs, _, AList.lookup_insert _, copied, ?_⟩
    rw [records] at known
    exact (item_perm_read known unread).trans perm

theorem Holds.length_entries (holds : s.Holds runs) (kept : Kept retain s) :
    runs.entries.length = s.runs.length := by
  rw [← (holds.keys_perm kept).length_eq, AList.keys, List.keys, List.length_map]

section

variable {insert : RunId} {sequence : Nat} {now : Timestamp} {record : RunRecord}
  (holds : s.Holds runs) (kept : Kept retain s) (age : record.age = (none, sequence))
  (enters : Goes retain s (.enter insert sequence now) s')

include holds kept age enters

theorem Holds.insertRun_room (room : s.runs.length < retain) :
    (runs.insertRun insert record retain).1 = [] ∧ s'.inserts.lookup insert = none := by
  have count := (holds.enter age enters).length_entries (kept.step (moves_of_step enters))
  cases moves_of_step enters with
  | within fresh =>
    rw [List.length_append, List.length_singleton] at count
    rw [RunTable.insertRun, if_pos (count.trans_le room)]
    refine ⟨rfl, Option.eq_none_iff_forall_ne_some.mpr fun call found => ?_⟩
    exact AList.lookup_eq_none.mp fresh (kept.inserted insert call found)
  | beyond _ full => exact absurd room (Nat.not_lt.mpr full)

theorem Holds.picks_insertRun (full : retain ≤ s.runs.length) {order : List RunId}
    (reads : Run (Goes retain) s' (order.map (.read insert)) t) {call : InsertCall}
    (pending : t.inserts.lookup insert = some call) (done : call.unread = []) :
    call.picks retain = (runs.insertRun insert record retain).1 := by
  have kept' := kept.step (moves_of_step enters)
  have holds' := holds.enter age enters
  have entered : s'.inserts.lookup insert = some (.snapshot s'.runs) ∧
      retain < s'.runs.length := by
    cases moves_of_step enters with
    | within _ room => exact absurd room (Nat.not_lt.mpr full)
    | beyond =>
      refine ⟨AList.lookup_insert _, ?_⟩
      rw [List.length_append, List.length_singleton]
      exact Nat.lt_succ_of_le full
  obtain ⟨-, -, call', look, copied, perm⟩ := Reading.of_reads entered.1 reads
  obtain rfl := Option.some.inj (pending.symm.trans look)
  have collected : call.ended.Perm (s'.runs.filterMap s'.item) := by
    simpa [done, InsertCall.snapshot] using perm
  have sorted := oldest_eq_take_mergeSort RunTable.endedBefore_trans RunTable.endedBefore_total
    RunTable.endedBefore_antisymm (s'.runs.length - retain)
    (collected.trans (holds'.ended_perm kept').symm)
  have count := holds'.length_entries kept'
  rw [RunTable.insertRun, if_neg (by omega)]
  dsimp only
  rw [count, ← sorted, InsertCall.picks, copied]
  rfl

end

theorem Holds.remove (holds : s.Holds runs) {insert : RunId} {call : InsertCall}
    (pending : s.inserts.lookup insert = some call)
    (removes : Goes retain s (.remove insert) s') :
    s'.Holds (runs.evict (call.picks retain)) := by
  cases moves_of_step removes with
  | @remove _ found pending' done =>
    obtain rfl := Option.some.inj (pending.symm.trans pending')
    intro run
    rw [RunTable.lookup_evict]
    by_cases picked : run ∈ call.picks retain
    · have gone : run ∉ s.runs.filter fun run => run ∉ call.picks retain := by simp [picked]
      rw [if_pos picked, if_neg gone]
      rfl
    · rw [if_neg picked, holds run]
      exact if_congr (by simp [picked]) rfl rfl

def Undisturbed (s : Retention) : RetentionStep → Prop
  | .enter _ _ _ | .transition _ _ _ => s.inserts = ∅
  | .read _ _ | .remove _ => True

structure Lone (s : Retention) : Prop where
  single : ∀ first second, first ∈ s.inserts → second ∈ s.inserts → first = second
  copied : ∀ insert call, s.inserts.lookup insert = some call → call.copied = s.runs
  seen : ∀ insert call, s.inserts.lookup insert = some call → ∀ run ∈ s.runs, ∀ ended,
    s.endOf run = some ended → run ∈ call.seen

theorem Lone.fair (lone : Lone s) (move : RetentionStep) : Fair retain s move := by
  cases move with
  | read insert run =>
    intro call pending time _
    refine .inr fun other _ earlier => ?_
    obtain ⟨ended, isOver, -⟩ := endedEarlier_iff.mp earlier
    by_cases here : other ∈ s.runs
    · exact .inl (lone.seen insert call pending other here ended isOver)
    · exact .inr ⟨lone.copied insert call pending ▸ here, here⟩
  | _ => trivial

theorem Lone.of_idle (idle : ∀ insert, insert ∉ s.inserts) : Lone s where
  single first _ mem := absurd mem (idle first)
  copied insert _ pending := by
    rw [AList.lookup_eq_none.mpr (idle insert)] at pending
    cases pending
  seen insert _ pending := by
    rw [AList.lookup_eq_none.mpr (idle insert)] at pending
    cases pending

theorem Lone.of_insert {insert : RunId} {call : InsertCall}
    (inserts : s'.inserts = s.inserts.insert insert call)
    (alone : ∀ other ∈ s.inserts, other = insert) (copied : call.copied = s'.runs)
    (seen : ∀ run ∈ s'.runs, ∀ ended, s'.endOf run = some ended → run ∈ call.seen) : Lone s' := by
  have only {other : RunId} (mem : other ∈ s'.inserts) : other = insert := by
    rw [inserts] at mem
    exact ((AList.mem_insert _).mp mem).elim id (alone other)
  have own {other : RunId} {found : InsertCall} (look : s'.inserts.lookup other = some found) :
      found = call := by
    have mem : other ∈ s'.inserts := AList.lookup_isSome.mp (by rw [look]; rfl)
    rw [only mem, inserts, AList.lookup_insert] at look
    exact (Option.some.inj look).symm
  exact ⟨fun first second mem mem' => (only mem).trans (only mem').symm,
    fun other found look => own look ▸ copied, fun other found look => own look ▸ seen⟩

theorem Lone.step {move : RetentionStep} (lone : Lone s) (undisturbed : Undisturbed s move)
    (moves : Moves retain s move s') : Lone s' := by
  have idle (none : s.inserts = ∅) (insert : RunId) : insert ∉ s.inserts :=
    none ▸ AList.notMem_empty insert
  cases moves with
  | within | transition => exact .of_idle (idle undisturbed)
  | beyond =>
    exact .of_insert rfl (fun other mem => absurd mem (idle undisturbed other)) rfl
      fun run mem _ _ => List.mem_append_left _ mem
  | @read insert run call record pending known unread =>
    have here : insert ∈ s.inserts := AList.lookup_isSome.mp (by rw [pending]; rfl)
    refine .of_insert rfl (fun other mem => lone.single other insert mem here)
      (lone.copied insert call pending) fun other mem ended isOver => ?_
    have before := lone.seen insert call pending other mem ended isOver
    rw [← (seen_read_perm record unread).mem_iff, List.mem_append] at before
    refine before.resolve_right fun passed => ?_
    split at passed
    · cases passed
    · next active =>
      rw [List.mem_singleton.mp passed] at isOver
      have isOver' : record.endedAt = some ended := (endOf_of_lookup known).symm.trans isOver
      exact active (by rw [isOver']; rfl)
  | @remove insert call pending done =>
    refine .of_idle fun other mem => ?_
    obtain ⟨differ, before⟩ := AList.mem_erase.mp mem
    exact differ (lone.single other insert before (AList.lookup_isSome.mp (by rw [pending]; rfl)))

theorem fair_of_undisturbed {moves : List RetentionStep}
    (run : Run (Along Undisturbed (Goes retain)) .empty moves s) :
    Run (Along (Fair retain) (Goes retain)) .empty moves s :=
  run.along_of_invariant Lone
    (fun _ _ _ lone undisturbed h => lone.step undisturbed (moves_of_step h))
    (fun _ move lone _ => lone.fair move) (.of_idle AList.notMem_empty)

theorem undisturbed_removes_oldest {moves : List RetentionStep}
    (run : Run (Along Undisturbed (Goes retain)) .empty moves s) {insert : RunId}
    (h : Goes retain s (.remove insert) s') : RemovesOldest s s' ∧ LeavesEnough retain s s' :=
  (Orderly.run (fair_of_undisturbed run)).removes (Kept.run run.forget) h

end Retention

end CodeWeave
