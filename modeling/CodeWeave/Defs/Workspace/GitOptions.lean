import CodeWeave.Defs.Workspace.DiffPages
import CodeWeave.Defs.Workspace.GitActions

namespace CodeWeave

open Arguments

abbrev Safe (arguments : GitArguments) : Prop := Guarded gitOptions arguments

theorem safe_ownTexts (texts : List String) : Safe (ownTexts texts) := guarded_own _

theorem dashes_mem (texts : List String) (mem : "--" ∈ texts) :
    (⟨"--".toList, false⟩ : Argument Text) ∈ ownTexts texts :=
  List.mem_map_of_mem (List.mem_map_of_mem mem)

theorem safe_after_dashes {before : GitArguments} (safe : Safe before) (after : GitArguments) :
    Safe (before ++ ownTexts ["--"] ++ after) :=
  (safe.own _).ended (List.mem_append_right _ (dashes_mem ["--"] (by simp))) rfl after

theorem safe_statusArguments : Safe statusArguments := safe_ownTexts _

theorem safe_diffArguments (staged : Bool) (paths : List Text) :
    Safe (diffArguments staged paths) := by
  have start : Safe (ownTexts ["diff", "--no-ext-diff", "--unified=3"] ++
      (if staged then ownTexts ["--cached"] else [])) := by
    cases staged with
    | false => exact (safe_ownTexts _).own []
    | true => exact (safe_ownTexts _).own _
  rw [diffArguments]
  by_cases whole : paths = []
  · rwa [if_pos whole, List.append_nil]
  · rw [if_neg whole, ← List.append_assoc]
    exact safe_after_dashes start _

theorem safe_lsFilesArguments (paths : List Text) : Safe (lsFilesArguments paths) :=
  (safe_ownTexts _).ended (dashes_mem _ (by simp)) rfl _

theorem safe_logArguments (limit : Nat) : Safe (logArguments limit) := guarded_own _

theorem safe_blameArguments (path : Text) (start finish : Option Nat) :
    Safe (blameArguments path start finish) := by
  refine safe_after_dashes ?_ _
  split
  · exact (safe_ownTexts _).own _
  · exact (safe_ownTexts _).own []

theorem safe_addArguments (paths : List Text) : Safe (addArguments paths) :=
  (safe_ownTexts _).ended (dashes_mem _ (by simp)) rfl _

theorem safe_commitArguments (message : Text) : Safe (commitArguments message) := by
  have last : (ownTexts ["commit", "-m"]).getLast? = some ⟨"-m".toList, false⟩ := rfl
  exact (safe_ownTexts _).value last rfl message

theorem safe_restoreArguments (paths : List Text) (staged : Bool) :
    Safe (restoreArguments paths staged) := by
  refine safe_after_dashes ?_ _
  cases staged with
  | false => exact (safe_ownTexts _).own []
  | true => exact (safe_ownTexts _).own _

theorem safe_pushArguments {remote branch : Text} (remote_plain : ¬gitOptions.isOption remote)
    (branch_plain : ¬gitOptions.isOption branch) : Safe (pushArguments remote branch) := by
  have start : Safe (ownTexts ["push"] ++ client [remote]) :=
    (safe_ownTexts _).plain remote_plain
  rw [pushArguments]
  split
  · rwa [List.append_nil]
  · exact start.plain branch_plain

theorem safe_showArguments {reference : Text} :
    Safe (showArguments reference) ↔ ¬gitOptions.isOption reference := by
  constructor
  · intro safe looks
    have sheltered := safe _ _ [] rfl rfl
    rcases sheltered with ended | value | plain
    · revert ended; simp [ownTexts, own, gitOptions]
    · revert value; simp [ownTexts, own, gitOptions]
    · exact plain looks
  · exact fun plain => (safe_ownTexts _).plain plain

theorem plain_of_validatedPushTarget {request : GitPushRequest} {currentBranch remote branch : Text}
    (ok : validatedPushTarget request currentBranch = .ok (remote, branch)) :
    ¬gitOptions.isOption remote ∧ ¬gitOptions.isOption branch := by
  simp only [validatedPushTarget] at ok
  split at ok
  · cases ok
  · next remote_valid =>
    split at ok
    · cases ok
    · next branch_valid =>
      cases ok
      simp only [not_or] at remote_valid branch_valid
      exact ⟨remote_valid.2.2.1, branch_valid.2.1⟩

namespace CliGitBackend

variable (git : CliGitBackend) (disk : Disk)

theorem all_run {arguments : GitArguments} (safe : Safe arguments) (maxChars : Budget) :
    (git.run arguments maxChars).All Safe := Traced.all_act safe _

theorem all_diff (staged : Bool) (paths : List RelPath) (maxChars : Budget) :
    (git.diff disk staged paths maxChars).All Safe := by
  refine Traced.all_bind (git.all_run (safe_diffArguments _ _) _) fun text _ => ?_
  split
  · exact Traced.all_pure _
  · refine Traced.all_bind (Traced.all_bind ?_ fun _ _ => Traced.all_pure _) fun _ _ =>
      Traced.all_pure _
    exact git.all_run (safe_lsFilesArguments _) _

theorem all_stage (paths : List RelPath) : (git.stage paths).All Safe := by
  rw [stage]
  split
  · exact Traced.all_lift _
  · exact Traced.all_bind (git.all_run (safe_addArguments _) _) fun _ _ => Traced.all_pure _

theorem all_commit (message : Text) : (git.commit message).All Safe := by
  rw [commit]
  split
  · exact Traced.all_lift _
  · exact git.all_run (safe_commitArguments _) _

theorem all_restore (paths : List RelPath) (staged : Bool) : (git.restore paths staged).All Safe := by
  rw [restore]
  split
  · exact Traced.all_lift _
  · exact Traced.all_bind (git.all_run (safe_restoreArguments _ _) _) fun _ _ => Traced.all_pure _

end CliGitBackend

namespace Workspace

variable (ws : Workspace) (policy : GitPolicy) (io : GitIo) (world : World)

theorem all_runReconcilePending : (ws.runReconcilePending io world).All Safe := by
  intro arguments mem
  simp only [runReconcilePending] at mem
  split at mem
  · rw [List.mem_singleton.mp mem]; exact safe_statusArguments
  · cases mem

theorem all_runRefreshRepoStatus : (ws.runRefreshRepoStatus io world).All Safe :=
  Traced.all_bind (Traced.all_act safe_statusArguments _) fun _ _ => Traced.all_pure _

theorem all_runRescan : (ws.runRescan io world).All Safe := by
  intro arguments mem
  simp only [runRescan] at mem
  split at mem
  · rw [List.mem_singleton.mp mem]; exact safe_statusArguments
  · cases mem

theorem all_runGitDiff (request : GitDiffRequest) :
    (ws.runGitDiff policy io world request).All Safe := by
  refine Traced.all_bind (Traced.all_lift _) fun _ _ => ?_
  refine Traced.all_bind (Traced.all_lift _) fun _ _ => ?_
  refine Traced.all_bind (Traced.all_lift _) fun _ _ => ?_
  refine Traced.all_bind (io.git.all_diff _ _ _ _) fun _ _ => ?_
  exact Traced.all_bind (Traced.all_lift _) fun _ _ => Traced.all_pure _

theorem all_runGitMutation {mutation : AppResult Unit → GitMutation} {output : GitRun Text}
    (safe : output.All Safe) : (ws.runGitMutation world mutation output).All Safe :=
  Traced.all_bind safe fun _ _ =>
    Traced.all_bind (Traced.all_act safe_statusArguments _) fun _ _ => Traced.all_pure _

def dashedShow : GitAction → Prop
  | .show request => request.reference.head? = some '-'
  | _ => False

theorem all_runGitAction (action : GitAction) (plain : ¬dashedShow action) :
    (ws.runGitAction policy io world action).All Safe := by
  cases action with
  | status => exact Traced.all_bind (ws.all_runRefreshRepoStatus io world) fun _ _ => Traced.all_pure _
  | diff request =>
    exact Traced.all_bind (ws.all_runGitDiff policy io world request) fun _ _ => Traced.all_pure _
  | log limit =>
    exact Traced.all_bind (io.git.all_run (safe_logArguments limit) _) fun _ _ => Traced.all_pure _
  | «show» request =>
    exact Traced.all_bind (io.git.all_run (safe_showArguments.mpr plain) _) fun _ _ =>
      Traced.all_pure _
  | blame request =>
    refine Traced.all_bind (Traced.all_lift _) fun paths _ => ?_
    cases paths with
    | nil => exact Traced.all_lift _
    | cons path rest =>
      exact Traced.all_bind (io.git.all_run (safe_blameArguments _ _ _) _) fun _ _ =>
        Traced.all_pure _
  | preflight =>
    refine Traced.all_bind (ws.all_runRefreshRepoStatus io world) fun _ _ => ?_
    exact Traced.all_bind (io.git.all_diff _ _ _ _) fun _ _ => Traced.all_pure _
  | stage paths =>
    refine Traced.all_bind (Traced.all_lift _) fun _ _ => ?_
    exact Traced.all_bind (ws.all_runGitMutation world (io.git.all_stage _)) fun _ _ =>
      Traced.all_pure _
  | commit message =>
    exact Traced.all_bind (ws.all_runGitMutation world (io.git.all_commit message)) fun _ _ =>
      Traced.all_pure _
  | restore request =>
    refine Traced.all_bind (Traced.all_lift _) fun _ _ => ?_
    split
    · exact Traced.all_lift _
    · refine Traced.all_bind (io.git.all_restore _ _) fun _ _ => ?_
      exact Traced.all_bind (ws.all_runRescan io world) fun _ _ => Traced.all_pure _
  | push request =>
    rw [runGitAction]
    split
    · exact Traced.all_lift _
    · refine Traced.all_bind (Traced.all_act safe_statusArguments _) fun _ _ => ?_
      refine Traced.all_bind (Traced.all_lift _) fun target ok => ?_
      obtain ⟨remote_plain, branch_plain⟩ := plain_of_validatedPushTarget ok
      exact Traced.all_bind (io.git.all_run (safe_pushArguments remote_plain branch_plain) _)
        fun _ _ => Traced.all_pure _

theorem not_all_runGitAction {action : GitAction} (dashed : dashedShow action) :
    ¬(ws.runGitAction policy io world action).All Safe := by
  cases action with
  | «show» request =>
    intro safe
    have handed : showArguments request.reference ∈
        (ws.runGitAction policy io world (.show request)).trace :=
      Traced.mem_bind (List.mem_singleton_self _) _
    exact safe_showArguments.mp (safe _ handed) dashed
  | _ => exact dashed.elim

theorem runGit_safe_iff (action : GitAction) : (ws.runGit policy io world action).All Safe ↔
    ¬(dashedShow action ∧
      (ws.reconcilePending io.reconcile world.disk world.state).1.isOk = true) := by
  have first := ws.all_runReconcilePending io world
  constructor
  · rintro safe ⟨dashed, reconciled⟩
    obtain ⟨changed, ok⟩ := exists_of_isOk reconciled
    have result : (ws.runReconcilePending io world).result = .ok { world with
        state := (ws.reconcilePending io.reconcile world.disk world.state).2 } := by
      simp only [runReconcilePending, ok]
      rfl
    refine ws.not_all_runGitAction policy io { world with
      state := (ws.reconcilePending io.reconcile world.disk world.state).2 } dashed
      fun arguments mem => safe arguments ?_
    rw [runGit, Traced.bind_trace_of_ok result]
    exact List.mem_append_right _ mem
  · intro sound
    refine Traced.all_bind first fun later result => ?_
    refine ws.all_runGitAction policy io later action fun dashed => sound ⟨dashed, ?_⟩
    simp only [runReconcilePending] at result
    cases ok : (ws.reconcilePending io.reconcile world.disk world.state).1 with
    | ok changed => rfl
    | error error => rw [ok] at result; cases result

end Workspace

namespace Sample

def quietIo : GitIo :=
  ⟨.calm, ⟨fun _ => .ok [], .ok .default, fun _ => [], fun _ => none⟩, Disk.holding [], .calm⟩

def writingShow : GitAction := .show ⟨"--output=/tmp/x".toList, none⟩

end Sample

open Sample in
theorem show_reads_option :
    let run := Workspace.plain.runGit (cappedAt 1000) quietIo diffWorld writingShow
    run.trace = [showArguments "--output=/tmp/x".toList] ∧ ¬run.All Safe := by
  have handed : (Workspace.plain.runGit (cappedAt 1000) quietIo diffWorld writingShow).trace =
      [showArguments "--output=/tmp/x".toList] := by
    rfl
  have dashed : gitOptions.isOption "--output=/tmp/x".toList := rfl
  refine ⟨handed, fun safe => safe_showArguments.mp (safe _ ?_) dashed⟩
  rw [handed]
  exact List.mem_singleton_self _

end CodeWeave
