import CodeWeave.Defs.Workspace.Validation
import CodeWeave.Lib.InTurn

namespace CodeWeave

universe u

open InTurn

def answerStatus (result : Value) : Option Text := answerField result "status"

namespace ValidationCall

def startedCommand : ValidationCall → Option Text
  | started command _ => some command
  | queued _ _ => none

inductive Succeeded : ValidationCall → Prop
  | intro {command : Text} {result : Value} :
    answerStatus result = some "succeeded".toList → Succeeded (.started command (.ok result))

def ofAnswered (answered : Text × Value) : ValidationCall := .started answered.1 (.ok answered.2)

/-- No command is started after one that has not succeeded. -/
def Orderly (calls : List ValidationCall) : Prop :=
  calls.Pairwise fun earlier later => later.startedCommand.isSome → earlier.Succeeded

end ValidationCall

def ValidationEntry.ofAnswered (answered : Text × Value) : ValidationEntry :=
  .result answered.1 answered.2

def SucceededAll (passed : List (Text × Value)) : Prop :=
  ∀ answered ∈ passed, answerStatus answered.2 = some "succeeded".toList

inductive ValidationEnd (queue : AppResult Value) :
    List Text → List ValidationEntry → ValidationOutcome → List ValidationCall → Prop
  | passed {before : List ValidationEntry} :
    ValidationEnd queue [] before ⟨before, false, none, none⟩ []
  | overBudget {before : List ValidationEntry} {rest : List Text} : rest ≠ [] →
    ValidationEnd queue rest before
      ⟨before ++ (spawnPendingValidation queue rest).2,
        (spawnPendingValidation queue rest).1.isNone, (spawnPendingValidation queue rest).1, none⟩
      [.queued (joinedCommand rest) queue]
  | failed {before : List ValidationEntry} {command : Text} {rest : List Text}
    {answer : AppResult Value} {entry : ValidationEntry} :
    ¬ (ValidationCall.started command answer).Succeeded →
    ValidationEnd queue (command :: rest) before ⟨before ++ [entry], true, none, none⟩
      [.started command answer]
  | promoted {before : List ValidationEntry} {command runId : Text} {result : Value} :
    answerStatus result = some "running".toList → answerField result "run_id" = some runId →
    ValidationEnd queue [command] before
      ⟨before ++ [.result command result], false, some runId, none⟩ [.started command (.ok result)]
  | promotedBefore {before : List ValidationEntry} {command runId : Text} {rest : List Text}
    {result : Value} : rest ≠ [] →
    answerStatus result = some "running".toList → answerField result "run_id" = some runId →
    ValidationEnd queue (command :: rest) before
      ⟨before ++ [.result command result] ++ (spawnPendingValidation queue rest).2,
        (spawnPendingValidation queue rest).1.isNone, some runId,
        (spawnPendingValidation queue rest).1⟩
      [.started command (.ok result), .queued (joinedCommand rest) queue]

theorem answerStatus_running {result : Value} {command : Text}
    (running : answerStatus result = some "running".toList) :
    ¬ (ValidationCall.started command (.ok result)).Succeeded := by
  rintro ⟨succeeded⟩
  rw [running] at succeeded
  exact absurd succeeded (by decide)

namespace ValidationBash

variable (bash : ValidationBash) (budgetMs : Nat)

theorem validateFrom_ends (begun : Nat) (before : List ValidationEntry) (commands : List Text) :
    ∃ (passed : List (Text × Value)) (rest : List Text) (ended : List ValidationCall),
      commands = passed.map Prod.fst ++ rest ∧ SucceededAll passed ∧
      (bash.validateFrom budgetMs begun before commands).2 =
        passed.map .ofAnswered ++ ended ∧
      ValidationEnd bash.queue rest (before ++ passed.map .ofAnswered)
        (bash.validateFrom budgetMs begun before commands).1 ended := by
  induction commands generalizing begun before with
  | nil => exact ⟨[], [], [], rfl, by simp [SucceededAll], rfl, by simpa using .passed⟩
  | cons command rest ih =>
    by_cases isOver : bash.overBudget budgetMs begun = true
    · refine ⟨[], command :: rest, _, rfl, by simp [SucceededAll], rfl, ?_⟩
      rw [validateFrom, if_pos isOver, List.map_nil, List.append_nil]
      exact .overBudget (List.cons_ne_nil _ _)
    · rw [validateFrom, if_neg isOver]
      cases answered : bash.start begun with
      | error error =>
        refine ⟨[], command :: rest, _, rfl, by simp [SucceededAll], rfl, ?_⟩
        rw [List.map_nil, List.append_nil]
        exact .failed (by rintro ⟨⟩)
      | ok result =>
        by_cases succeeded : answerField result "status" = some "succeeded".toList
        · obtain ⟨passed, left, ended, split, all, calls, fate⟩ :=
            ih (begun + 1) (before ++ [.result command result])
          refine ⟨(command, result) :: passed, left, ended, ?_, ?_, ?_, ?_⟩
          · rw [split, List.map_cons, List.cons_append]
          · exact List.forall_mem_cons.mpr ⟨succeeded, all⟩
          · simp only [succeeded, if_true, calls, List.map_cons, List.cons_append]
            rfl
          · simp only [succeeded, if_true]
            rw [List.append_assoc] at fate
            exact fate
        · refine ⟨[], command :: rest, _, rfl, by simp [SucceededAll], rfl, ?_⟩
          rw [List.map_nil, List.append_nil]
          simp only [succeeded, if_false]
          by_cases running : answerField result "status" = some "running".toList
          · rw [if_pos running]
            split
            · exact .failed (answerStatus_running running)
            · next runId named =>
              by_cases last : rest = []
              · subst last
                rw [if_pos rfl]
                exact .promoted running named
              · rw [if_neg last]
                exact .promotedBefore last running named
          · rw [if_neg running]
            exact .failed (by rintro ⟨done⟩; exact succeeded done)

end ValidationBash

/-- A shell that takes a command in parentheses as the command, and a command in parentheses
before a joined one as the one and then the other. -/
structure TakesConjunction {S : Type u} (shell : Shell Text S) (commands : List Text) : Prop where
  grouped : ∀ command ∈ commands, shell (parenthesized command) = shell command
  conjoined : ∀ command rest, rest ≠ [] → command :: rest <:+ commands →
    shell (parenthesized command ++ " && ".toList ++ joinedCommand rest) =
      andThen (shell (parenthesized command)) (shell (joinedCommand rest))

theorem joinedCommand_cons {command : Text} {rest : List Text} (more : rest ≠ []) :
    joinedCommand (command :: rest) =
      parenthesized command ++ " && ".toList ++ joinedCommand rest := by
  rw [joinedCommand, List.map_cons, List.intercalate_cons_of_ne_nil (by simpa using more)]
  rfl

theorem TakesConjunction.tail {S : Type u} {shell : Shell Text S} {command : Text}
    {rest : List Text} (takes : TakesConjunction shell (command :: rest)) :
    TakesConjunction shell rest where
  grouped other mem := takes.grouped other (List.mem_cons_of_mem _ mem)
  conjoined other left more suffix :=
    takes.conjoined other left more (suffix.trans (List.suffix_cons _ _))

theorem TakesConjunction.joined {S : Type u} {shell : Shell Text S} {commands : List Text}
    (takes : TakesConjunction shell commands) (some : commands ≠ []) (s : S) :
    shell (joinedCommand commands) s = inTurn shell commands s := by
  induction commands generalizing s with
  | nil => exact absurd rfl some
  | cons command rest ih =>
    have here : shell (parenthesized command) = shell command :=
      takes.grouped command List.mem_cons_self
    by_cases last : rest = []
    · subst last
      have alone : joinedCommand [command] = parenthesized command := List.intercalate_singleton
      rw [alone, here, inTurn, andThen]
      rcases shell command s with ⟨_ | _, t⟩
      · rfl
      · rfl
    · rw [joinedCommand_cons last, takes.conjoined command rest last List.suffix_rfl, here, inTurn]
      exact congrArg (fun second => andThen (shell command) second s) (funext (ih takes.tail last))

/-- Each command is reported as succeeded, is the one promoted, or is listed under the id of
the one queued run, which succeeds only where its commands do. -/
structure Accounted (bash : ValidationBash) (commands : List Text) (outcome : ValidationOutcome)
    (calls : List ValidationCall) (passed : List (Text × Value)) (promoted : Option (Text × Value))
    (deferred : List Text) (queuedRun : Text) : Prop where
  split : commands = passed.map Prod.fst ++ promoted.toList.map Prod.fst ++ deferred
  succeeded : SucceededAll passed
  running : ∀ answered ∈ promoted, answerStatus answered.2 = some "running".toList ∧
    answerField answered.2 "run_id" = outcome.pendingRunId
  listed : outcome.validation = passed.map .ofAnswered ++ promoted.toList.map .ofAnswered ++
    deferred.map fun command => .deferred command queuedRun
  carried : calls = passed.map .ofAnswered ++ promoted.toList.map .ofAnswered ++
    if deferred = [] then [] else [.queued (joinedCommand deferred) bash.queue]
  queued : deferred ≠ [] → ∃ result, bash.queue = .ok result ∧
    answerField result "run_id" = some queuedRun ∧
    (if promoted.isSome then outcome.deferredRunId else outcome.pendingRunId) = some queuedRun
  conjunction : ∀ (S : Type u) (shell : Shell Text S), TakesConjunction shell deferred →
    ∀ s t, deferred ≠ [] → shell (joinedCommand deferred) s = (true, t) →
      Succeeds shell s deferred t

theorem spawnPendingValidation_some {queue : AppResult Value} {commands : List Text}
    {runId : Text} (spawned : (spawnPendingValidation queue commands).1 = some runId) :
    ∃ result, queue = .ok result ∧ answerField result "run_id" = some runId ∧
      (spawnPendingValidation queue commands).2 =
        commands.map fun command => .deferred command runId := by
  cases queue with
  | error error => cases spawned
  | ok result =>
    cases named : answerField result "run_id" with
    | none => simp only [spawnPendingValidation, named, reduceCtorEq] at spawned
    | some found =>
      simp only [spawnPendingValidation, named, Option.some.injEq] at spawned
      subst spawned
      exact ⟨result, rfl, named, by simp only [spawnPendingValidation, named]⟩

theorem ValidationCall.orderly_append {passed : List (Text × Value)} (all : SucceededAll passed)
    {ended : List ValidationCall} (orderly : Orderly ended) :
    Orderly (passed.map .ofAnswered ++ ended) := by
  have passing : ∀ call ∈ passed.map ofAnswered, call.Succeeded := by
    intro call mem
    obtain ⟨answered, among, rfl⟩ := List.mem_map.mp mem
    exact .intro (all answered among)
  refine List.pairwise_append.mpr ⟨?_, orderly, ?_⟩
  · exact List.pairwise_of_forall_mem_list fun earlier first _ _ _ => passing earlier first
  · exact fun earlier first _ _ _ => passing earlier first

theorem ValidationEnd.orderly {queue : AppResult Value} {rest : List Text}
    {before : List ValidationEntry} {outcome : ValidationOutcome} {ended : List ValidationCall}
    (fate : ValidationEnd queue rest before outcome ended) : ValidationCall.Orderly ended := by
  cases fate with
  | passed => exact .nil
  | overBudget | failed | promoted => exact List.pairwise_singleton _ _
  | promotedBefore =>
    refine .cons (fun later mem starts => ?_) (List.pairwise_singleton _ _)
    rw [List.mem_singleton.mp mem] at starts
    cases starts

theorem ValidationEnd.clean {queue : AppResult Value} {rest : List Text}
    {before : List ValidationEntry} {outcome : ValidationOutcome} {ended : List ValidationCall}
    (fate : ValidationEnd queue rest before outcome ended) (clean : outcome.failed = false)
    (settled : outcome.pendingRunId = none) : rest = [] ∧ ended = [] := by
  cases fate with
  | passed => exact ⟨rfl, rfl⟩
  | overBudget =>
    have spawned := Option.isNone_eq_false_iff.mp clean
    exact absurd settled (Option.isSome_iff_ne_none.mp spawned)
  | failed => cases clean
  | promoted | promotedBefore => cases settled

theorem ValidationEnd.accounted {bash : ValidationBash} {rest : List Text}
    {passed : List (Text × Value)} {outcome : ValidationOutcome} {ended : List ValidationCall}
    (fate : ValidationEnd bash.queue rest (passed.map .ofAnswered) outcome ended)
    (all : SucceededAll passed) (clean : outcome.failed = false) {run : Text}
    (pending : outcome.pendingRunId = some run) : ∃ promoted deferred queuedRun,
      Accounted.{u} bash (passed.map Prod.fst ++ rest) outcome (passed.map .ofAnswered ++ ended)
        passed promoted deferred queuedRun := by
  have joins (deferred : List Text) : ∀ (S : Type u) (shell : Shell Text S),
      TakesConjunction shell deferred → ∀ s t, deferred ≠ [] →
      shell (joinedCommand deferred) s = (true, t) → Succeeds shell s deferred t :=
    fun _ _ takes s _ more done => inTurn_eq_true.mp ((takes.joined more s).symm.trans done)
  cases fate with
  | passed | failed => cases pending
  | overBudget more =>
    obtain ⟨answer, answered, named, listing⟩ := spawnPendingValidation_some pending
    refine ⟨none, rest, run, ?_, all, ?_, ?_, ?_, ?_, joins rest⟩
    · simp
    · exact fun _ absent => nomatch absent
    · simp [listing]
    · simp [more]
    · exact fun _ => ⟨answer, answered, named, pending⟩
  | @promoted _ command _ result running named =>
    refine ⟨some (command, result), [], [], ?_, all, ?_, ?_, ?_, ?_, joins []⟩
    · simp
    · rintro _ ⟨⟩
      exact ⟨running, named⟩
    · simp [ValidationEntry.ofAnswered]
    · simp [ValidationCall.ofAnswered]
    · exact fun more => absurd rfl more
  | @promotedBefore _ command _ later result more running named =>
    obtain ⟨queuedRun, spawned⟩ := Option.isSome_iff_exists.mp (Option.isNone_eq_false_iff.mp clean)
    obtain ⟨answer, answered, queueNamed, listing⟩ := spawnPendingValidation_some spawned
    refine ⟨some (command, result), later, queuedRun, ?_, all, ?_, ?_, ?_, ?_, joins later⟩
    · simp
    · rintro _ ⟨⟩
      exact ⟨running, named⟩
    · simp [listing, ValidationEntry.ofAnswered]
    · simp [more, ValidationCall.ofAnswered]
    · exact fun _ => ⟨answer, answered, queueNamed, spawned⟩

/-- A validation does not pass falsely: without a failure and a run every command has been
started and has succeeded, nothing is started after a command that has not succeeded, and
with a run every command is accounted for. -/
theorem runEditValidation_sound (bash : ValidationBash) (budgetMs : Nat) (commands : List Text) :
    let outcome := (bash.runEditValidation budgetMs commands).1
    let calls := (bash.runEditValidation budgetMs commands).2
    (outcome.failed = false → outcome.pendingRunId = none → outcome.deferredRunId = none →
      calls.map ValidationCall.startedCommand = commands.map some ∧
        ∀ call ∈ calls, call.Succeeded) ∧
    ValidationCall.Orderly calls ∧
    (∀ run, outcome.failed = false → outcome.pendingRunId = some run →
      ∃ passed promoted deferred queuedRun,
        Accounted.{u} bash commands outcome calls passed promoted deferred queuedRun) := by
  obtain ⟨passed, rest, ended, split, all, carried, fate⟩ :=
    bash.validateFrom_ends budgetMs 0 [] commands
  simp only [ValidationBash.runEditValidation]
  refine ⟨fun clean settled _ => ?_, ?_, fun run clean pending => ?_⟩
  · obtain ⟨rfl, rfl⟩ := fate.clean clean settled
    rw [carried, split, List.append_nil, List.append_nil]
    refine ⟨?_, fun call mem => ?_⟩
    · rw [List.map_map, List.map_map]
      rfl
    · obtain ⟨answered, among, rfl⟩ := List.mem_map.mp mem
      exact .intro (all answered among)
  · rw [carried]
    exact ValidationCall.orderly_append all fate.orderly
  · obtain ⟨promoted, deferred, queuedRun, accounted⟩ := fate.accounted all clean pending
    rw [carried]
    rw [← split] at accounted
    exact ⟨passed, promoted, deferred, queuedRun, accounted⟩

namespace Sample

def answer (status runId : String) : AppResult Value :=
  .ok (json [("status", .str status), ("run_id", .str runId)])

def promotingBash : ValidationBash where
  elapsedMs _ := 0
  start begun := if begun = 0 then answer "succeeded" "1" else answer "running" "2"
  queue := answer "running" "3"

def checks : List Text := ["check".toList, "test".toList, "lint".toList]

def notingShell : Shell Text (List Text) := fun text log =>
  if text ∈ ["test".toList, "(test)".toList] then (true, log ++ ["test".toList])
  else if text ∈ ["lint".toList, "(lint)".toList] then (true, log ++ ["lint".toList])
  else if text = "(test) && (lint)".toList then (true, log ++ ["test".toList, "lint".toList])
  else (false, log)

theorem notingShell_takes : TakesConjunction notingShell ["test".toList, "lint".toList] where
  grouped command mem := by
    rcases List.mem_cons.mp mem with rfl | mem
    · rfl
    · rw [List.mem_singleton.mp mem]
      rfl
  conjoined command rest more suffix := by
    rcases List.suffix_cons_iff.mp suffix with eq | later
    · cases eq
      funext log
      simp [notingShell, andThen, joinedCommand, parenthesized, List.intercalate]
    · rcases List.suffix_cons_iff.mp later with eq | none
      · cases eq
        exact absurd rfl more
      · cases List.suffix_nil.mp none

end Sample

open Sample in
theorem runEditValidation_sound_promoting :
    (promotingBash.runEditValidation 9000 checks).1.pendingRunId = some "2".toList ∧
    (promotingBash.runEditValidation 9000 checks).1.deferredRunId = some "3".toList ∧
    (∃ passed promoted deferred queuedRun,
      Accounted.{0} promotingBash checks (promotingBash.runEditValidation 9000 checks).1
        (promotingBash.runEditValidation 9000 checks).2 passed promoted deferred queuedRun) ∧
    (promotingBash.runEditValidation 9000 (checks.take 1)).2.map ValidationCall.startedCommand =
      [some "check".toList] ∧
    Succeeds notingShell [] ["test".toList, "lint".toList] ["test".toList, "lint".toList] :=
  ⟨rfl, rfl, (runEditValidation_sound promotingBash 9000 checks).2.2 "2".toList rfl rfl,
    ((runEditValidation_sound.{0} promotingBash 9000 (checks.take 1)).1 rfl rfl rfl).1,
    inTurn_eq_true.mp ((notingShell_takes.joined (by decide) []).symm.trans rfl)⟩

end CodeWeave
