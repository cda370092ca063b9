import CodeWeave.Defs.Bash.Lifecycle
import CodeWeave.Lib.Oldest

/-! `RunTable::insert` step by step: inserts that overlap with each other and with the ends of
runs. -/

namespace CodeWeave

/-- An insert between its copy of the table and its removals: the records it has yet to read,
and what it has collected of those that had ended.  `copied` is the snapshot's ids. -/
structure InsertCall where
  copied : List RunId
  unread : List RunId
  ended : List (Timestamp × Nat × RunId)
  deriving DecidableEq

namespace InsertCall

def snapshot (runs : List RunId) : InsertCall := ⟨runs, runs, []⟩

def read (call : InsertCall) (run : RunId) (record : RunRecord) : InsertCall where
  copied := call.copied
  unread := call.unread.erase run
  ended := match record.endedAt with
    | none => call.ended
    | some ended => call.ended ++ [(ended, record.sequence, run)]

def collected (call : InsertCall) : List RunId := call.ended.map fun item => item.2.2

def seen (call : InsertCall) : List RunId := call.unread ++ call.collected

def picks (call : InsertCall) (retain : Nat) : List RunId :=
  (Oldest.oldest RunTable.endedBefore (call.copied.length - retain) call.ended).map
    fun item => item.2.2

end InsertCall

/-- The records of all runs, which their handles keep alive, the ids in the table, and the
inserts under way by the runs they insert.  `latest` and `activeAtRead` are ghosts: the insert
that entered the table last, and how many runs had not ended when it began to read, if it has. -/
structure Retention where
  records : RunTable
  runs : List RunId
  inserts : Table RunId InsertCall
  latest : Option RunId
  activeAtRead : Nat

inductive RetentionStep
  | enter (run : RunId) (sequence : Nat) (now : Timestamp)
  | read (insert run : RunId)
  | remove (insert : RunId)
  | transition (run : RunId) (next : RunStatus) (now : Timestamp)

namespace Retention

def empty : Retention := ⟨∅, [], ∅, none, 0⟩

variable (retain : Nat) (s : Retention)

def endOf (run : RunId) : Option Timestamp := (s.records.lookup run).bind RunRecord.endedAt

def active : List RunId := s.records.keys.filter fun run => s.endOf run = none

def EndsBefore (now : Timestamp) : Prop :=
  ∀ run ∈ s.records.keys, ∀ ended ∈ s.endOf run, ended < now

instance (now : Timestamp) : Decidable (s.EndsBefore now) :=
  inferInstanceAs (Decidable (∀ run ∈ s.records.keys, ∀ ended ∈ s.endOf run, ended < now))

-- Run ids are fresh, and runs end at increasing times.
def step : RetentionStep → Option Retention
  | .enter run sequence now =>
    if s.records.lookup run = none then
      let entered := { s with
        records := s.records.insert run (.queued run sequence now none)
        runs := s.runs ++ [run]
        latest := some run
        activeAtRead := 0 }
      if entered.runs.length ≤ retain then some entered
      else some { entered with inserts := s.inserts.insert run (.snapshot entered.runs) }
    else none
  | .read insert run =>
    match s.inserts.lookup insert, s.records.lookup run with
    | some call, some record =>
      if run ∈ call.unread then some { s with
        inserts := s.inserts.insert insert (call.read run record)
        activeAtRead := if s.latest = some insert ∧ call.unread = call.copied then s.active.length
          else s.activeAtRead }
      else none
    | _, _ => none
  | .remove insert =>
    match s.inserts.lookup insert with
    | none => none
    | some call =>
      if call.unread = [] then some { s with
        runs := s.runs.filter fun run => run ∉ call.picks retain
        inserts := s.inserts.erase insert }
      else none
  | .transition run next now =>
    match s.records.lookup run with
    | none => none
    | some record =>
      let changed := (record.transition now next).2
      if changed.endedAt = record.endedAt ∨ s.EndsBefore now then
        some { s with records := s.records.insert run changed }
      else none

end Retention

end CodeWeave
