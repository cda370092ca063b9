import CodeWeave.Defs.Index.ScanLaws
import CodeWeave.Defs.Workspace.ReconcileLaws
import CodeWeave.Defs.Workspace.Commit

namespace CodeWeave

def Queued (ws : Workspace) (disk : Disk) (ledger : ChangeLedger) (path : PathBuf) : Prop :=
  ledger.needsReconcile = true ∧ path ∈ ledger.pending ∧ ws.refreshes disk path = true

def Remembers {A : Type} (ws : Workspace) (disk : Disk) (ledger : ChangeLedger)
    (outcome : AppResult A × ReconciledState) : Prop :=
  outcome.1.isOk = false → ∀ path, Queued ws disk ledger path → outcome.2.ledger.Awaits path

section

variable {A : Type} {ws : Workspace} {disk : Disk} {ledger : ChangeLedger}

theorem remembers_of_isOk {outcome : AppResult A × ReconciledState} (ok : outcome.1.isOk = true) :
    Remembers ws disk ledger outcome := by
  intro failed
  rw [ok] at failed
  cases failed

theorem not_awaits_of_idle {later : ChangeLedger} (idle : later.needsReconcile = false)
    (path : PathBuf) : ¬later.Awaits path := by
  intro awaits
  rw [awaits.1] at idle
  cases idle

theorem remembers_iff_of_idle {outcome : AppResult A × ReconciledState}
    (failed : outcome.1.isOk = false) (idle : outcome.2.ledger.needsReconcile = false) :
    Remembers ws disk ledger outcome ↔ ∀ path, ¬Queued ws disk ledger path := by
  constructor
  · intro remembers path queued
    exact not_awaits_of_idle idle path (remembers failed path queued)
  · intro nothing _ path queued
    exact absurd queued (nothing path)

end

section

variable (ws : Workspace) (disk : Disk) (state : ReconciledState)

theorem remembers_reconcileWith_iff (io : ReconcileIo) :
    Remembers ws disk state.ledger (ws.reconcileWith io disk state) ↔
      ∀ path, Queued ws disk state.ledger path → ws.readable disk io.faults path = true := by
  have outcome := reconcileWith_outcome ws io disk state
  revert outcome
  generalize ws.reconcileWith io disk state = result
  rcases result with ⟨result, later⟩
  intro outcome
  cases outcome with
  | idle none_asked =>
    refine iff_of_true (remembers_of_isOk rfl) fun path queued => ?_
    rw [queued.1] at none_asked
    cases none_asked
  | failed asked fails =>
    rw [remembers_iff_of_idle rfl rfl]
    refine iff_of_false (fun nothing => fails fun path mem refreshes => ?_) fun reads => ?_
    · exact absurd ⟨asked, mem, refreshes⟩ (nothing path)
    · exact fails fun path mem refreshes => reads path ⟨asked, mem, refreshes⟩
  | quiet asked reads unchanged same =>
    exact iff_of_true (remembers_of_isOk rfl) fun path queued => reads path queued.2.1 queued.2.2
  | published asked reads refreshed moved =>
    exact iff_of_true (remembers_of_isOk rfl) fun path queued => reads path queued.2.1 queued.2.2

theorem remembers_rescan_iff (io : ScanIo) (status : AppResult RepoStatus) :
    Remembers ws disk state.ledger (ws.rescan io status disk state) ↔
      ws.ScanReads disk io ∨ ∀ path, ¬Queued ws disk state.ledger path := by
  have reads := ws.scan_isOk disk io
  rw [Workspace.rescan, ← reads]
  cases ws.scan disk io with
  | error error =>
    simp only [isOk_error, Bool.false_eq_true, false_or]
    exact remembers_iff_of_idle rfl rfl
  | ok index => exact iff_of_true (remembers_of_isOk rfl) (.inl rfl)

/-- A failed reconcile or rescan forgets no pending change exactly when it does not
fail over one: no queued path fails to be read, and no file the scan walks does
while something is queued. -/
theorem failed_calls_remember_iff (reconcile : ReconcileIo) (scan : ScanIo)
    (status : AppResult RepoStatus) :
    (Remembers ws disk state.ledger (ws.reconcileWith reconcile disk state) ↔
      ∀ path, Queued ws disk state.ledger path →
        ws.readable disk reconcile.faults path = true) ∧
    (Remembers ws disk state.ledger (ws.rescan scan status disk state) ↔
      ws.ScanReads disk scan ∨ ∀ path, ¬Queued ws disk state.ledger path) :=
  ⟨remembers_reconcileWith_iff ws disk state reconcile, remembers_rescan_iff ws disk state scan status⟩

end

namespace Sample

def diskA : Disk := Disk.holding [(["a".toList], "new".toList)]

def observedA : ReconciledState :=
  let state := (World.opened .plain (Disk.holding [(["a".toList], "old".toList)])).state
  state.withLedger (state.ledger.observe .plain diskA [.below "a".toList])

def unreadable (components : List Text) : Option IoError :=
  if components = ["a".toList] then some ⟨.other, "Input/output error"⟩ else none

end Sample

open Sample in
theorem failed_calls_forget :
    (¬Remembers .plain diskA observedA.ledger
      (Workspace.plain.reconcileWith { ReconcileIo.calm with faults := unreadable } diskA observedA)) ∧
    ¬Remembers .plain diskA observedA.ledger
      (Workspace.plain.rescan { ScanIo.calm with faults := unreadable } (.ok .default) diskA
        observedA) := by
  have queued : Queued .plain diskA observedA.ledger (.below "a".toList) := ⟨rfl, by decide, rfl⟩
  exact ⟨fun remembers => not_awaits_of_idle rfl _ (remembers (by decide) _ queued),
    fun remembers => not_awaits_of_idle rfl _ (remembers (by decide) _ queued)⟩

end CodeWeave
