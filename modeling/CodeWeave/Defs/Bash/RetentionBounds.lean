import CodeWeave.Defs.Bash.RetentionLaws

namespace CodeWeave

open Runs Oldest

namespace Retention

variable {retain : Nat} {s s' : Retention} {move : RetentionStep}

structure Misses (s : Retention) (call : InsertCall) (missed : List RunId) : Prop where
  few : missed.length ≤ s.activeAtRead
  all : ∀ run ∈ call.copied, run ∈ missed ∨ run ∈ call.collected ∨
    (run ∈ call.unread ∧ (s.endOf run).isSome)

structure Underway (s : Retention) (call : InsertCall) : Prop where
  within : s.runs ⊆ call.copied
  begun : call.unread = call.copied ∨ ∃ missed, Misses s call missed

structure Bounded (retain : Nat) (s : Retention) : Prop where
  unentered : s.latest = none → s.runs = []
  returned : ∀ insert, s.latest = some insert → s.inserts.lookup insert = none →
    s.runs.length ≤ max retain s.activeAtRead
  underway : ∀ insert call, s.latest = some insert → s.inserts.lookup insert = some call →
    Underway s call

theorem length_le_of_subset {left right : List RunId} (once : left.Nodup) (sub : left ⊆ right) :
    left.length ≤ right.length :=
  (List.subperm_of_subset once sub).length_le

theorem Collects.nodup_picks {call : InsertCall} (collects : Collects retain s call) :
    (call.picks retain).Nodup := by
  have once : call.collected.Nodup := collects.once.of_append_right
  obtain ⟨picked, perm, sub⟩ :=
    oldest_subperm RunTable.endedBefore (call.copied.length - retain) call.ended
  exact (perm.map _).nodup_iff.mp ((sub.map _).nodup once)

theorem Underway.length_le {call : InsertCall} (underway : Underway s call)
    (kept : Kept retain s) (collects : Collects retain s call) (done : call.unread = []) :
    (s.runs.filter fun run => run ∉ call.picks retain).length ≤ max retain s.activeAtRead := by
  have beyond := collects.beyond
  have once := kept.once.filter fun run => decide (run ∉ call.picks retain)
  obtain ⟨missed, few, all⟩ := underway.begun.resolve_left fun same => by
    rw [← same, done] at beyond
    cases beyond
  by_cases scarce : call.ended.length ≤ call.copied.length - retain
  · refine (length_le_of_subset once fun run mem => ?_).trans (few.trans (Nat.le_max_right _ _))
    obtain ⟨here, out⟩ := List.mem_filter.mp mem
    rcases all run (underway.within here) with among | collected | ⟨unread, -⟩
    · exact among
    · obtain ⟨item, ended, rfl⟩ := List.mem_map.mp collected
      exact absurd (List.mem_map_of_mem (mem_oldest_of_length_le scarce ended))
        (of_decide_eq_true out)
    · rw [done] at unread
      cases unread
  · have count : (call.picks retain).length = call.copied.length - retain := by
      rw [InsertCall.picks, List.length_map, length_oldest]
      exact Nat.min_eq_left (by omega)
    have taken : (call.picks retain).length ≤
        (call.copied.filter fun run => run ∈ call.picks retain).length := by
      refine length_le_of_subset collects.nodup_picks fun run picked => ?_
      obtain ⟨item, ended, rfl⟩ := List.mem_map.mp (mem_collected_of_picks picked)
      exact List.mem_filter.mpr ⟨(collects.ended item ended).2, decide_eq_true picked⟩
    have left : (s.runs.filter fun run => run ∉ call.picks retain).length ≤
        (call.copied.filter fun run => run ∉ call.picks retain).length := by
      refine length_le_of_subset once fun run mem => ?_
      obtain ⟨here, out⟩ := List.mem_filter.mp mem
      exact List.mem_filter.mpr ⟨underway.within here, out⟩
    have split := List.length_eq_length_filter_add (l := call.copied)
      fun run => decide (run ∈ call.picks retain)
    simp only [decide_not] at left ⊢
    exact (by omega : _ ≤ retain).trans (Nat.le_max_left _ _)

theorem Misses.later {call : InsertCall} {missed : List RunId} (misses : Misses s call missed)
    (later : Later s s') (same : s'.activeAtRead = s.activeAtRead) : Misses s' call missed where
  few := same ▸ misses.few
  all run mem := by
    rcases misses.all run mem with among | collected | ⟨unread, isOver⟩
    · exact .inl among
    · exact .inr (.inl collected)
    · obtain ⟨ended, isOver⟩ := Option.isSome_iff_exists.mp isOver
      exact .inr (.inr ⟨unread, by rw [later.kept run ended isOver]; rfl⟩)

theorem Underway.later {call : InsertCall} (underway : Underway s call) (later : Later s s')
    (same : s'.activeAtRead = s.activeAtRead) (runs : s'.runs ⊆ s.runs) : Underway s' call where
  within := List.Subset.trans runs underway.within
  begun := underway.begun.imp_right fun ⟨missed, misses⟩ => ⟨missed, misses.later later same⟩

theorem Underway.misses {call : InsertCall} (underway : Underway s call)
    (collects : Collects retain s call) : ∃ missed : List RunId,
      missed.length ≤ (if call.unread = call.copied then s.active.length else s.activeAtRead) ∧
      ∀ run ∈ call.copied, run ∈ missed ∨ run ∈ call.collected ∨
        (run ∈ call.unread ∧ (s.endOf run).isSome) := by
  by_cases first : call.unread = call.copied
  · rw [if_pos first]
    refine ⟨s.active, Nat.le_refl _, fun run mem => ?_⟩
    cases isOver : s.endOf run with
    | none =>
      refine .inl (List.mem_filter.mpr ⟨AList.mem_keys.mp (collects.known run mem), ?_⟩)
      exact decide_eq_true isOver
    | some ended => exact .inr (.inr ⟨first ▸ mem, rfl⟩)
  · rw [if_neg first]
    obtain ⟨missed, few, all⟩ := underway.begun.resolve_left first
    exact ⟨missed, few, all⟩

theorem Underway.read {run : RunId} {call : InsertCall} {record : RunRecord}
    (underway : Underway s call) (collects : Collects retain s call)
    (known : s.records.lookup run = some record) (later : Later s s') (runs : s'.runs = s.runs)
    (count : s'.activeAtRead =
      if call.unread = call.copied then s.active.length else s.activeAtRead) :
    Underway s' (call.read run record) := by
  obtain ⟨missed, few, all⟩ := underway.misses collects
  refine ⟨runs ▸ underway.within, .inr ⟨missed, count ▸ few, fun other mem => ?_⟩⟩
  have collected {other : RunId} (before : other ∈ call.collected) :
      other ∈ (call.read run record).collected := by
    rw [InsertCall.collected, InsertCall.read]
    split
    · exact before
    · rw [List.map_append]
      exact List.mem_append_left _ before
  rcases all other mem with among | before | ⟨unread, isOver⟩
  · exact .inl among
  · exact .inr (.inl (collected before))
  · obtain ⟨ended, isOver⟩ := Option.isSome_iff_exists.mp isOver
    by_cases here : other = run
    · subst here
      rw [endOf_of_lookup known] at isOver
      refine .inr (.inl ?_)
      simp [InsertCall.collected, InsertCall.read, isOver]
    · refine .inr (.inr ⟨(List.mem_erase_of_ne here).mpr unread, ?_⟩)
      rw [later.kept other ended isOver]
      rfl

theorem Bounded.step (kept : Kept retain s) (bounded : Bounded retain s)
    (moves : Moves retain s move s') : Bounded retain s' := by
  have later := moves.later kept.final
  cases moves with
  | @within run _ _ fresh room =>
    refine ⟨nofun, fun insert _ _ => ?_, fun insert call latest found => ?_⟩
    · rw [List.length_append, List.length_singleton]
      exact (Nat.succ_le_of_lt room).trans (Nat.le_max_left _ _)
    · cases latest
      exact absurd (kept.inserted run call found) (AList.lookup_eq_none.mp fresh)
  | @beyond run _ _ fresh full =>
    refine ⟨nofun, fun insert latest none => ?_, fun insert call latest found => ?_⟩
    · cases latest
      rw [AList.lookup_insert] at none
      cases none
    · cases latest
      rw [AList.lookup_insert] at found
      cases found
      exact ⟨List.Subset.refl _, .inl rfl⟩
  | @read insert run call record pending known unread =>
    refine ⟨bounded.unentered, fun other latest none => ?_, fun other found latest look => ?_⟩
    · by_cases same : other = insert
      · rw [same, AList.lookup_insert] at none
        cases none
      · rw [AList.lookup_insert_ne same] at none
        have apart : ¬(s.latest = some insert ∧ call.unread = call.copied) := fun both =>
          same (Option.some.inj (latest.symm.trans both.1))
        rw [if_neg apart]
        exact bounded.returned other latest none
    · by_cases same : other = insert
      · subst same
        rw [AList.lookup_insert] at look
        cases look
        refine (bounded.underway other call latest pending).read (kept.calls other call pending)
          known later rfl ?_
        exact if_congr (and_iff_right latest) rfl rfl
      · rw [AList.lookup_insert_ne same] at look
        have apart : ¬(s.latest = some insert ∧ call.unread = call.copied) := fun both =>
          same (Option.some.inj (latest.symm.trans both.1))
        exact (bounded.underway other found latest look).later later (if_neg apart)
          (List.Subset.refl _)
  | @remove insert call pending done =>
    refine ⟨fun none => ?_, fun other latest none => ?_, fun other found latest look => ?_⟩
    · rw [show s.runs = [] from bounded.unentered none]
      rfl
    · by_cases same : other = insert
      · subst same
        exact (bounded.underway other call latest pending).length_le kept
          (kept.calls other call pending) done
      · rw [AList.lookup_erase_ne same] at none
        exact (List.length_filter_le _ _).trans (bounded.returned other latest none)
    · by_cases same : other = insert
      · rw [same, AList.lookup_erase] at look
        cases look
      · rw [AList.lookup_erase_ne same] at look
        exact (bounded.underway other found latest look).later later rfl
          fun _ mem => List.mem_of_mem_filter mem
  | transition known after =>
    exact ⟨bounded.unentered, bounded.returned, fun insert call latest found =>
      (bounded.underway insert call latest found).later later rfl (List.Subset.refl _)⟩

theorem kept_empty (retain : Nat) : Kept retain .empty where
  final _ _ found := by cases found
  distinct _ _ _ isOver := by cases isOver
  once := .nil
  known _ mem := absurd mem List.not_mem_nil
  retained _ mem := absurd mem (AList.notMem_empty _)
  inserted _ _ found := by cases found
  calls _ _ found := by cases found

theorem bounded_empty (retain : Nat) : Bounded retain .empty where
  unentered _ := rfl
  returned _ latest := by cases latest
  underway _ _ latest := by cases latest

theorem orderly_empty (retain : Nat) : Orderly retain .empty where
  evicted _ mem := absurd mem (AList.notMem_empty _)
  reckoned _ _ found := by cases found

def Goes (retain : Nat) (s : Retention) (move : RetentionStep) (s' : Retention) : Prop :=
  s.step retain move = some s'

theorem Kept.run {moves : List RetentionStep} (run : Run (Goes retain) .empty moves s) :
    Kept retain s :=
  run.invariant (Kept retain) (fun _ _ _ kept h => kept.step (moves_of_step h)) (kept_empty retain)

theorem Bounded.run {moves : List RetentionStep} (run : Run (Goes retain) .empty moves s) :
    Bounded retain s := by
  have both := run.invariant (fun s => Kept retain s ∧ Bounded retain s)
    (fun _ _ _ inv h => ⟨inv.1.step (moves_of_step h), inv.2.step inv.1 (moves_of_step h)⟩)
    ⟨kept_empty retain, bounded_empty retain⟩
  exact both.2

theorem Orderly.run {moves : List RetentionStep}
    (run : Run (Along (Fair retain) (Goes retain)) .empty moves s) : Orderly retain s := by
  have preserved (s : Retention) (move : RetentionStep) (s' : Retention)
      (inv : Kept retain s ∧ Orderly retain s) (fair : Fair retain s move)
      (h : Goes retain s move s') : Kept retain s' ∧ Orderly retain s' :=
    ⟨inv.1.step (moves_of_step h), inv.2.step inv.1 fair (moves_of_step h)⟩
  exact (run.invariant_along _ preserved ⟨kept_empty retain, orderly_empty retain⟩).2

def RemovesOldest (s s' : Retention) : Prop :=
  ∀ run ∈ s.runs, run ∉ s'.runs → ∀ left ∈ s'.runs, ∀ later, s.endOf left = some later →
    ∃ ended, s.endOf run = some ended ∧ ended < later

def LeavesEnough (retain : Nat) (s s' : Retention) : Prop :=
  s'.runs = s.runs ∨ retain ≤ s'.runs.length

theorem Orderly.removes (orderly : Orderly retain s) (kept : Kept retain s) {insert : RunId}
    (h : Goes retain s (.remove insert) s') : RemovesOldest s s' ∧ LeavesEnough retain s s' := by
  cases moves_of_step h with
  | @remove _ call pending done =>
    refine ⟨fun gone mem out left among later isOver => ?_, ?_⟩
    · have picked : gone ∈ call.picks retain := by
        by_contra unpicked
        exact out (List.mem_filter.mpr ⟨mem, decide_eq_true unpicked⟩)
      obtain ⟨here, stays⟩ := List.mem_filter.mp among
      obtain ⟨ended, isOver'⟩ := kept.ended_of_removed pending picked
      exact ⟨ended, isOver', ended_before_left kept orderly pending done picked here
        (of_decide_eq_true stays) isOver' isOver⟩
    · by_cases some : ∃ gone ∈ s.runs, gone ∈ call.picks retain
      · obtain ⟨gone, mem, picked⟩ := some
        exact .inr (retain_le_of_removed kept orderly pending done mem picked)
      · refine .inl (List.filter_eq_self.mpr fun other mem => decide_eq_true fun picked => ?_)
        exact some ⟨other, mem, picked⟩

/-- In every run, what is not in the table has ended, and when all inserts have returned the
table is within its bound.  In every run whose inserts reckon with what has ended, each removes
the runs that ended first, and leaves enough. -/
theorem insert_evicts_oldest (retain : Nat) :
    (∀ moves s, Run (Goes retain) .empty moves s →
      (∀ run record, s.records.lookup run = some record → record.endedAt = none → run ∈ s.runs) ∧
      (s.inserts = ∅ → s.runs.length ≤ max retain s.activeAtRead)) ∧
    (∀ moves s, Run (Along (Fair retain) (Goes retain)) .empty moves s →
      ∀ insert s', Goes retain s (.remove insert) s' →
        RemovesOldest s s' ∧ LeavesEnough retain s s') := by
  refine ⟨fun moves s run => ⟨fun id record known active => ?_, fun idle => ?_⟩,
    fun moves s run insert s' h => ?_⟩
  · refine (Kept.run run).retained id (AList.lookup_isSome.mp (by rw [known]; rfl)) ?_
    rw [endOf_of_lookup known, active]
  · have bounded := Bounded.run run
    cases latest : s.latest with
    | none =>
      rw [bounded.unentered latest]
      exact Nat.zero_le _
    | some insert => exact bounded.returned insert latest (by rw [idle]; rfl)
  · exact (Orderly.run run).removes (Kept.run run.forget) h

end Retention

namespace Sample

open Retention

def enters (names : List String) : List RetentionStep :=
  names.map fun name => .enter name.toList 0 0

def reads (insert : String) (names : List String) : List RetentionStep :=
  names.map fun name => .read insert.toList name.toList

def ends (name : String) (now : Timestamp) : List RetentionStep :=
  [.transition name.toList .failed now]

def removes (insert : String) : List RetentionStep := [.remove insert.toList]

def passedOver : List RetentionStep :=
  enters ["x", "y"] ++ reads "y" ["x", "y"] ++ removes "y" ++ enters ["z"] ++ reads "z" ["x"] ++
    ends "x" 1 ++ ends "y" 2 ++ reads "z" ["y", "z"]

def removedTwice : List RetentionStep :=
  enters ["d", "y", "r", "a"] ++ reads "a" ["d", "y"] ++ ends "d" 1 ++ ends "y" 2 ++ enters ["b"] ++
    reads "b" ["d", "y", "r", "a", "b"] ++ removes "b" ++ ends "r" 3 ++ reads "a" ["r", "a"]

def overlapping : List RetentionStep :=
  enters ["d", "y", "r", "a"] ++ ends "d" 1 ++ reads "a" ["y", "d"] ++ enters ["b"] ++
    reads "b" ["d", "y"] ++ ends "r" 2 ++ reads "a" ["r", "a"] ++ reads "b" ["r", "a", "b"] ++
    removes "a"

def reached (f : Retention → RetentionStep → Option Retention) (moves : List RetentionStep) :
    Retention := (moves.foldlM f .empty).getD .empty

def fairStep (retain : Nat) (s : Retention) (move : RetentionStep) : Option Retention :=
  if Fair retain s move then s.step retain move else none

def after (retain : Nat) (s : Retention) (move : RetentionStep) : Retention :=
  (s.step retain move).getD .empty

theorem eq_some_getD {found : Option Retention} (some_found : found.isSome = true) :
    found = some (found.getD .empty) := by
  cases found with
  | none => cases some_found
  | some s => rfl

theorem run_reached {retain : Nat} {moves : List RetentionStep}
    (possible : (moves.foldlM (step retain) .empty).isSome = true) :
    Run (Goes retain) .empty moves (reached (step retain) moves) :=
  .of_foldlM (eq_some_getD possible)

theorem fair_reached {retain : Nat} {moves : List RetentionStep}
    (possible : (moves.foldlM (fairStep retain) .empty).isSome = true) :
    Run (Along (Fair retain) (Goes retain)) .empty moves (reached (fairStep retain) moves) :=
  .of_guarded_foldlM (eq_some_getD possible)

end Sample

open Sample Retention in
/-- An insert can remove a run that ended after one that it keeps, and two inserts can remove
more than are too many. -/
theorem insert_evicts_others :
    ¬(∀ retain moves s insert s', Run (Goes retain) .empty moves s →
      Goes retain s (.remove insert) s' → RemovesOldest s s') ∧
    ¬(∀ retain moves s insert s', Run (Goes retain) .empty moves s →
      Goes retain s (.remove insert) s' → LeavesEnough retain s s') := by
  constructor
  · intro all
    let s := reached (step 1) passedOver
    have removes : Goes 1 s (.remove "z".toList) (after 1 s (.remove "z".toList)) :=
      eq_some_getD (by decide +kernel)
    have oldest := all 1 passedOver s _ _ (run_reached (by decide +kernel)) removes
    obtain ⟨ended, isOver, order⟩ := oldest "y".toList (by decide +kernel) (by decide +kernel)
      "x".toList (by decide +kernel) 1 (by decide +kernel)
    have at_two : s.endOf "y".toList = some 2 := by decide +kernel
    cases isOver.symm.trans at_two
    exact absurd order (by decide)
  · intro all
    let s := reached (step 3) removedTwice
    have removes : Goes 3 s (.remove "a".toList) (after 3 s (.remove "a".toList)) :=
      eq_some_getD (by decide +kernel)
    rcases all 3 removedTwice s _ _ (run_reached (by decide +kernel)) removes with same | enough
    · exact absurd same (by decide +kernel)
    · exact absurd enough (by decide +kernel)

open Sample Retention in
theorem insert_evicts_oldest_overlapping :
    (RemovesOldest (reached (fairStep 3) overlapping)
        (after 3 (reached (fairStep 3) overlapping) (.remove "b".toList)) ∧
      LeavesEnough 3 (reached (fairStep 3) overlapping)
        (after 3 (reached (fairStep 3) overlapping) (.remove "b".toList))) ∧
    (reached (fairStep 3) overlapping).runs = ["y", "r", "a", "b"].map String.toList ∧
    (after 3 (reached (fairStep 3) overlapping) (.remove "b".toList)).runs =
      ["y", "a", "b"].map String.toList :=
  ⟨(insert_evicts_oldest 3).2 overlapping _ (fair_reached (by decide +kernel)) "b".toList _
    (eq_some_getD (by decide +kernel)), by decide +kernel, by decide +kernel⟩

end CodeWeave
