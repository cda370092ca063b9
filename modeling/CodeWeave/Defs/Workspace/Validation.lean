import CodeWeave.Defs.Error

namespace CodeWeave

/-- What a validation meets: the milliseconds gone by when it comes to a command, and what
`bash.start` answers for it, by the number of commands before it; and what `bash.queue`
answers. -/
structure ValidationBash where
  elapsedMs : Nat → Nat
  start : Nat → AppResult Value
  queue : AppResult Value

inductive ValidationCall
  | started (command : Text) (answer : AppResult Value)
  | queued (command : Text) (answer : AppResult Value)

inductive ValidationEntry
  | result (command : Text) (result : Value)
  | error (command : Text) (error : AppError)
  | deferred (command : Text) (runId : Text)
  | deferredResult (command : Text) (result : Value)

def ValidationEntry.json (errorJson : AppError → Value) : ValidationEntry → Value
  | .result command answer => CodeWeave.json [("command", .string command), ("result", answer)]
  | .error command reason =>
    CodeWeave.json [("command", .string command), ("error", errorJson reason)]
  | .deferred command runId => CodeWeave.json [("command", .string command),
      ("deferred", .bool true), ("result", CodeWeave.json [("status", .str "pending"),
        ("reason", .str "blocked_by_pending_validation"), ("run_id", .string runId)])]
  | .deferredResult command answer => CodeWeave.json [("command", .string command),
      ("deferred", .bool true), ("result", answer)]

structure ValidationOutcome where
  validation : List ValidationEntry
  failed : Bool
  pendingRunId : Option Text
  deferredRunId : Option Text

def answerField (result : Value) (key : String) : Option Text := (result.get key).bind Value.asStr

def parenthesized (command : Text) : Text := '(' :: command ++ [')']

def joinedCommand (commands : List Text) : Text :=
  " && ".toList.intercalate (commands.map parenthesized)

def spawnPendingValidation (queue : AppResult Value) (commands : List Text) :
    Option Text × List ValidationEntry :=
  match queue with
  | .error error => (none, [.error (joinedCommand commands) error])
  | .ok result =>
    match answerField result "run_id" with
    | some runId => (some runId, commands.map fun command => .deferred command runId)
    | none => (none, [.deferredResult (joinedCommand commands) result])

namespace ValidationBash

variable (bash : ValidationBash) (budgetMs : Nat)

def overBudget (begun : Nat) : Bool := budgetMs ≠ 0 && budgetMs ≤ bash.elapsedMs begun

-- The loop of `run_edit_validation`, with the calls it makes.
def validateFrom (begun : Nat) (validation : List ValidationEntry) :
    List Text → ValidationOutcome × List ValidationCall
  | [] => (⟨validation, false, none, none⟩, [])
  | command :: rest =>
    if bash.overBudget budgetMs begun then
      let (runId, listed) := spawnPendingValidation bash.queue (command :: rest)
      (⟨validation ++ listed, runId.isNone, runId, none⟩,
        [.queued (joinedCommand (command :: rest)) bash.queue])
    else
      let call := ValidationCall.started command (bash.start begun)
      match bash.start begun with
      | .error error => (⟨validation ++ [.error command error], true, none, none⟩, [call])
      | .ok result =>
        let validation := validation ++ [.result command result]
        if answerField result "status" = some "succeeded".toList then
          let (outcome, calls) := validateFrom (begun + 1) validation rest
          (outcome, call :: calls)
        else if answerField result "status" = some "running".toList then
          match answerField result "run_id" with
          | none => (⟨validation, true, none, none⟩, [call])
          | some runId =>
            if rest = [] then (⟨validation, false, some runId, none⟩, [call])
            else
              let (deferredId, listed) := spawnPendingValidation bash.queue rest
              (⟨validation ++ listed, deferredId.isNone, some runId, deferredId⟩,
                [call, .queued (joinedCommand rest) bash.queue])
        else (⟨validation, true, none, none⟩, [call])

def runEditValidation (commands : List Text) : ValidationOutcome × List ValidationCall :=
  bash.validateFrom budgetMs 0 [] commands

end ValidationBash

end CodeWeave
