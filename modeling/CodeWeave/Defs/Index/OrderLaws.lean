import CodeWeave.Defs.Index.PostingsLaws
import CodeWeave.Defs.Index.RefreshTruth

/-! A refresh goes through a set of paths in any order.  The order matters only where
the tree of one path is removed from under the entry of another. -/

namespace CodeWeave

open Overwrite

structure CodeIndex.Same (ws : Workspace) (first second : CodeIndex) : Prop where
  contents : ∀ path, first.lookup path = second.lookup path
  postings : ∀ name, first.symbolIndex.lookup name = second.symbolIndex.lookup name
  snapshot : ∀ head, first.snapshotId ws head = second.snapshotId ws head

theorem CodeIndex.Built.same {ws : Workspace} {first second : CodeIndex} (built : first.Built ws)
    (built' : second.Built ws) (lookups : first.lookup = second.lookup) : first.Same ws second where
  contents := congrFun lookups
  postings := built.posted.lookup_congr built'.posted lookups
  snapshot := CodeIndex.snapshotId_of_hashAt built'.tallied built.tallied
    (by funext path; rw [hashAt, hashAt, lookups])

namespace Workspace

variable (ws : Workspace) (disk : Disk) (faults : ReadFaults)

def OrderFree (paths : List PathBuf) (index : CodeIndex) : Prop :=
  ∀ first second reported reported', first.Perm paths → second.Perm paths →
    (ws.refreshPaths disk faults first index).1 = .ok reported →
    (ws.refreshPaths disk faults second index).1 = .ok reported' →
    CodeIndex.Same ws (ws.refreshPaths disk faults first index).2
        (ws.refreshPaths disk faults second index).2 ∧
      ∀ path, path ∈ reported ↔ path ∈ reported'

/-- One path names no regular file, and another, below it by its text, a file that is to be
indexed. -/
def Overshadows (top path : PathBuf) : Prop :=
  disk.Fileless top ∧ ws.excludes path = false ∧
    (∃ entry, ws.readEntry disk faults path ∅ = .ok (some entry)) ∧
    top.relative ++ ['/'] <+: path.relative

variable {disk faults} {paths : List PathBuf} {index : CodeIndex}

theorem unshadowed_iff : ws.Unshadowed disk faults paths ↔
    ∀ top ∈ paths, ∀ path ∈ paths, ¬ws.Overshadows disk faults top path := by
  constructor
  · rintro unshadowed top topMem path mem ⟨fileless, included, ⟨entry, read⟩, below⟩
    exact unshadowed top topMem path mem entry fileless
      (ws.effectOf_insert_iff.mpr ⟨included, read⟩) (.inr below)
  · intro clear top topMem path mem entry fileless inserts below
    obtain ⟨included, read⟩ := ws.effectOf_insert_iff.mp inserts
    cases below with
    | inl same =>
      have nothing : ws.readEntry disk faults top ∅ = .ok none :=
        ws.readEntry_fileless fileless ∅
      rw [← ws.readEntry_congr same, read] at nothing
      cases nothing
    | inr below => exact clear top topMem path mem ⟨fileless, included, ⟨entry, read⟩, below⟩

section

variable (reads : ∀ path ∈ paths, ws.readable disk faults path = true)

include reads

theorem lookup_refreshPaths_perm (unshadowed : ws.Unshadowed disk faults paths)
    {order : List PathBuf} (perm : order.Perm paths) :
    (ws.refreshPaths disk faults order index).2.lookup =
      (ws.refreshPaths disk faults paths index).2.lookup := by
  have reads' : ∀ path ∈ order, ws.readable disk faults path = true :=
    fun path mem => reads path (perm.mem_iff.mp mem)
  rw [refreshPaths_snd, refreshPaths_snd, lookup_refreshedIndex, lookup_refreshedIndex, patches,
    patches, ws.refreshed_eq_self reads, ws.refreshed_eq_self reads']
  exact ((ws.agree_patches unshadowed reads).applyAll_perm (perm.symm.map _) index.lookup).symm

theorem orderFree_of_unshadowed (built : index.Built ws)
    (unshadowed : ws.Unshadowed disk faults paths) : ws.OrderFree disk faults paths index := by
  intro first second reported reported' perm perm' ok ok'
  have readsOf {order : List PathBuf} (perm : order.Perm paths) :
      ∀ path ∈ order, ws.readable disk faults path = true :=
    fun path mem => reads path (perm.mem_iff.mp mem)
  have unshadowedOf {order : List PathBuf} (perm : order.Perm paths) :
      ws.Unshadowed disk faults order := fun top topMem path mem =>
    unshadowed top (perm.mem_iff.mp topMem) path (perm.mem_iff.mp mem)
  have lookups : (ws.refreshPaths disk faults first index).2.lookup =
      (ws.refreshPaths disk faults second index).2.lookup := by
    rw [ws.lookup_refreshPaths_perm reads unshadowed perm,
      ws.lookup_refreshPaths_perm reads unshadowed perm']
  constructor
  · have builtOf (order : List PathBuf) : (ws.refreshPaths disk faults order index).2.Built ws := by
      rw [refreshPaths_snd]
      exact built_refreshedIndex disk faults order built
    exact (builtOf first).same (builtOf second) lookups
  · intro path
    have hashes : (ws.refreshPaths disk faults first index).2.hashAt path =
        (ws.refreshPaths disk faults second index).2.hashAt path :=
      congrArg (Option.map FileEntry.hash) (congrFun lookups path)
    rw [ws.reported_iff (unshadowedOf perm) (readsOf perm) ok,
      ws.reported_iff (unshadowedOf perm') (readsOf perm') ok', hashes]

theorem lookup_refreshPaths_last {path : PathBuf} (mem : path ∈ paths) {key : Text}
    {found : Option FileEntry} (decides : (ws.effectOf disk faults path).patch key = some found) :
    (ws.refreshPaths disk faults (paths.erase path ++ [path]) index).2.lookup key = found := by
  have reads' : ∀ other ∈ paths.erase path ++ [path], ws.readable disk faults other = true := by
    intro other otherMem
    rcases List.mem_append.mp otherMem with earlier | last
    · exact reads other (List.mem_of_mem_erase earlier)
    · rw [List.mem_singleton.mp last]
      exact reads path mem
  rw [refreshPaths_snd, lookup_refreshedIndex, patches, ws.refreshed_eq_self reads', List.map_append]
  exact applyAll_last decides (fun later none => absurd none List.not_mem_nil) index.lookup

theorem not_orderFree_of_overshadows {top path : PathBuf} (topMem : top ∈ paths) (mem : path ∈ paths)
    (shadow : ws.Overshadows disk faults top path) : ¬ws.OrderFree disk faults paths index := by
  obtain ⟨fileless, included, ⟨entry, read⟩, below⟩ := shadow
  have removes : (ws.effectOf disk faults top).patch path.relative = some none := by
    rcases ws.refresh_cases (reads top topMem) with ⟨effect, -⟩ | ⟨-, present, -⟩ | ⟨_, -, present, -⟩
    · rw [effect]
      exact if_pos (.inr below)
    · exact absurd fileless present
    · exact absurd fileless present
  have inserts : (ws.effectOf disk faults path).patch path.relative = some (some entry) := by
    rw [ws.effectOf_insert_iff.mpr ⟨included, read⟩]
    exact if_pos (ws.readEntry_path read).symm
  have perm {last : PathBuf} (lastMem : last ∈ paths) :
      (paths.erase last ++ [last]).Perm paths :=
    (List.perm_append_singleton last _).trans (List.perm_cons_erase lastMem).symm
  have ok {order : List PathBuf} (perm : order.Perm paths) :
      ∃ reported, (ws.refreshPaths disk faults order index).1 = .ok reported :=
    exists_of_isOk ((ws.refreshPaths_isOk disk faults order index).mpr
      fun other otherMem => reads other (perm.mem_iff.mp otherMem))
  intro orderFree
  obtain ⟨reported, fine⟩ := ok (perm topMem)
  obtain ⟨reported', fine'⟩ := ok (perm mem)
  have same := (orderFree _ _ reported reported' (perm topMem) (perm mem) fine fine').1.contents
    path.relative
  rw [ws.lookup_refreshPaths_last reads topMem removes,
    ws.lookup_refreshPaths_last reads mem inserts] at same
  cases same

end

/-- A refresh whose paths can all be read leaves the same index, and reports the same paths,
in whatever order it takes them, just if none of them that names no file lies above another
with a file to index. -/
theorem refreshPaths_orderFree_iff (built : index.Built ws)
    (ok : (ws.refreshPaths disk faults paths index).1.isOk = true) :
    ws.OrderFree disk faults paths index ↔
      ∀ top ∈ paths, ∀ path ∈ paths, ¬ws.Overshadows disk faults top path := by
  have reads := (ws.refreshPaths_isOk disk faults paths index).mp ok
  constructor
  · intro orderFree top topMem path mem shadow
    exact ws.not_orderFree_of_overshadows reads topMem mem shadow orderFree
  · intro clear
    exact ws.orderFree_of_unshadowed reads built (ws.unshadowed_iff.mpr clear)

end Workspace

namespace Sample

def fileBelowF : RelPath := ⟨"f/b".toList, by decide, by decide, by decide⟩

def otherDirectory : Disk := Disk.holding [(["d".toList, "x".toList], "new".toList)]

theorem refreshPaths_orderFree_gone :
    Workspace.plain.OrderFree otherDirectory (fun _ => none)
      [letterF.join, fileBelowF.join, fileBelowD.join] (indexHolding "f/b".toList) := by
  refine (Workspace.plain.refreshPaths_orderFree_iff (.insert _ .empty) (by rfl)).mpr ?_
  rintro top topMem path mem ⟨-, -, ⟨entry, read⟩, below⟩
  have onlyPair : ∀ top ∈ [letterF.join, fileBelowF.join, fileBelowD.join],
      ∀ path ∈ [letterF.join, fileBelowF.join, fileBelowD.join],
        top.relative ++ ['/'] <+: path.relative → path = fileBelowF.join := by
    decide
  have gone : Workspace.plain.readEntry otherDirectory (fun _ => none) fileBelowF.join ∅ =
      .ok none := by
    rfl
  rw [onlyPair top topMem path mem below, gone] at read
  cases read

-- The file `f` has become a directory with the file `b`.
theorem refreshPaths_not_orderFree :
    ¬Workspace.plain.OrderFree oneDirectory (fun _ => none) [letterF.join, fileBelowF.join]
      (indexHolding "f".toList) := by
  intro orderFree
  have same := (orderFree [letterF.join, fileBelowF.join] [fileBelowF.join, letterF.join] _ _
    (.refl _) (.swap _ _ []) rfl rfl).1.contents "f/b".toList
  exact absurd same (by decide)

end Sample

end CodeWeave
