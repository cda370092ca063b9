import CodeWeave.Defs.Workspace.Origins

namespace CodeWeave

open Runs

def Hashed (ws : Workspace) (index : CodeIndex) : Prop :=
  ∀ path entry, index.lookup path = some entry → entry.hash = ws.contentHash entry.content

section

variable {ws : Workspace}

theorem readEntry_hash {disk : Disk} {faults : ReadFaults} {path : PathBuf} {cache : SymbolCache}
    {entry : FileEntry} (read : ws.readEntry disk faults path cache = .ok (some entry)) :
    entry.hash = ws.contentHash entry.content := by
  rw [Workspace.readEntry] at read
  split at read
  · cases read
  · split at read
    · cases read
    · cases read
    · split at read
      · cases read
      · split at read
        · cases read
        · cases read
          rfl

theorem Walks.hash {disk : Disk} {io : ScanIo} {cache : SymbolCache} {entry : FileEntry}
    (walks : Walks ws disk io cache entry) : entry.hash = ws.contentHash entry.content := by
  obtain ⟨root, respectIgnores, path, -, -, read⟩ := walks
  exact readEntry_hash read

theorem Origin.hash {world : World} {action : Action} {entry : FileEntry}
    (origin : Origin ws world action entry) : entry.hash = ws.contentHash entry.content := by
  cases origin with
  | refreshed asked inserts => exact readEntry_hash (ws.effectOf_insert inserts)
  | scanned asked walks => exact walks.hash

theorem hashed_opened {start : World} (opened : ws.Opened start) :
    Hashed ws start.state.shared.index := by
  obtain ⟨disk, io, cache, index, status, scan, state⟩ := opened
  rw [state]
  intro path entry found
  have entryFound : index.lookup path = some entry := by cases status <;> exact found
  exact (walks_of_scanWorkspace scan entryFound).hash

end

theorem hashed_reached {ws : Workspace} {start later : World} {actions : List Action}
    (opened : ws.Opened start) (run : Run ws.Step start actions later) :
    Hashed ws later.state.shared.index := by
  refine run.invariant (fun world => Hashed ws world.state.shared.index) ?_ (hashed_opened opened)
  intro world action after hashed step path entry found
  rw [step] at found
  rcases origin_of_act action found with before | origin
  · exact hashed path entry before
  · exact origin.hash

end CodeWeave
