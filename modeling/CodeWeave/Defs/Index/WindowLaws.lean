import CodeWeave.Defs.Index.Windows
import Mathlib.Data.List.Flatten
import Mathlib.Data.List.Forall2

namespace CodeWeave

variable {T W F : Type}

def Window.Apart (first second : Window T) : Prop :=
  first.endLine < second.startLine ∨ second.endLine < first.startLine

instance : Std.Symm (@Window.Apart T) := ⟨fun _ _ => Or.symm⟩

structure Hit (T : Type) where
  startLine : Nat
  endLine : Nat
  hit : T

namespace WindowBuilder

def pushAll (builder : WindowBuilder T) (hits : List (Hit T)) : WindowBuilder T :=
  hits.foldl (fun builder hit => builder.push hit.startLine hit.endLine hit.hit) builder

theorem pushAll_concat (builder : WindowBuilder T) (hits : List (Hit T)) (hit : Hit T) :
    builder.pushAll (hits ++ [hit]) =
      (builder.pushAll hits).push hit.startLine hit.endLine hit.hit :=
  List.foldl_concat ..

def alone (builder : WindowBuilder T) (hit : Hit T) : Window T where
  line := hit.startLine
  startLine := max (hit.startLine - builder.contextLines) 1
  endLine := min (hit.endLine + builder.contextLines) builder.lineCount
  hits := [hit.hit]

theorem push_cases (builder : WindowBuilder T) (hit : Hit T) :
    (∃ init last, builder.windows = init ++ [last] ∧
      builder.push hit.startLine hit.endLine hit.hit = { builder with windows := init ++ [{ last with
        endLine := max last.endLine (builder.alone hit).endLine
        hits := last.hits ++ [hit.hit] }] }) ∨
    ((∀ init last, builder.windows = init ++ [last] → builder.hasRoom last = true →
        last.endLine + 1 < (builder.alone hit).startLine) ∧
      builder.push hit.startLine hit.endLine hit.hit =
        { builder with windows := builder.windows ++ [builder.alone hit] }) := by
  rcases List.eq_nil_or_concat builder.windows with empty | ⟨init, last, eq⟩
  · refine .inr ⟨fun init last eq => ?_, ?_⟩
    · rw [empty] at eq
      simp at eq
    · simp only [push, empty, List.getLast?_nil]
      rfl
  · rw [List.concat_eq_append] at eq
    have push_eq : builder.push hit.startLine hit.endLine hit.hit =
        if (builder.alone hit).startLine ≤ last.endLine + 1 ∧ builder.hasRoom last = true then
          { builder with windows := init ++ [{ last with
            endLine := max last.endLine (builder.alone hit).endLine
            hits := last.hits ++ [hit.hit] }] }
        else { builder with windows := builder.windows ++ [builder.alone hit] } := by
      simp only [push, eq, List.getLast?_concat, List.dropLast_concat]
      rfl
    rw [push_eq]
    split
    · exact .inl ⟨init, last, eq, rfl⟩
    · next apart =>
      refine .inr ⟨fun init' last' eq' room => ?_, rfl⟩
      have same := congrArg List.getLast? (eq.symm.trans eq')
      rw [List.getLast?_concat, List.getLast?_concat, Option.some.injEq] at same
      subst same
      by_contra near
      exact apart ⟨by omega, room⟩

theorem flatMap_hits_push (builder : WindowBuilder T) (hit : Hit T) :
    (builder.push hit.startLine hit.endLine hit.hit).windows.flatMap Window.hits =
      builder.windows.flatMap Window.hits ++ [hit.hit] := by
  rcases builder.push_cases hit with ⟨init, last, eq, pushed⟩ | ⟨-, pushed⟩
  · simp [pushed, eq]
  · simp [pushed, alone]

theorem flatMap_hits_pushAll (builder : WindowBuilder T) (hits : List (Hit T)) :
    (builder.pushAll hits).windows.flatMap Window.hits =
      builder.windows.flatMap Window.hits ++ hits.map Hit.hit := by
  induction hits using List.reverseRecOn with
  | nil => simp [pushAll]
  | append_singleton hits hit ih =>
    rw [pushAll_concat, flatMap_hits_push, ih, List.map_append, List.append_assoc]
    rfl

theorem hits_ne_nil {builder : WindowBuilder T}
    (before : ∀ window ∈ builder.windows, window.hits ≠ []) (hits : List (Hit T)) :
    ∀ window ∈ (builder.pushAll hits).windows, window.hits ≠ [] := by
  induction hits using List.reverseRecOn with
  | nil => exact before
  | append_singleton hits hit ih =>
    rw [pushAll_concat]
    intro window mem
    rcases (builder.pushAll hits).push_cases hit with ⟨init, last, eq, pushed⟩ | ⟨-, pushed⟩
    · rw [pushed] at mem
      rcases List.mem_append.mp mem with earlier | final
      · exact ih window (by rw [eq]; exact List.mem_append_left _ earlier)
      · rw [List.mem_singleton.mp final]
        simp
    · rw [pushed] at mem
      rcases List.mem_append.mp mem with earlier | final
      · exact ih window earlier
      · rw [List.mem_singleton.mp final]
        exact List.cons_ne_nil _ _

theorem push_fixed (builder : WindowBuilder T) (hit : Hit T) :
    (builder.push hit.startLine hit.endLine hit.hit).contextLines = builder.contextLines ∧
    (builder.push hit.startLine hit.endLine hit.hit).lineCount = builder.lineCount ∧
    (builder.push hit.startLine hit.endLine hit.hit).maxHitsPerWindow =
      builder.maxHitsPerWindow := by
  rcases builder.push_cases hit with ⟨init, last, -, eq⟩ | ⟨-, eq⟩ <;> rw [eq] <;>
    exact ⟨rfl, rfl, rfl⟩

theorem pushAll_fixed (builder : WindowBuilder T) (hits : List (Hit T)) :
    (builder.pushAll hits).contextLines = builder.contextLines ∧
    (builder.pushAll hits).lineCount = builder.lineCount ∧
    (builder.pushAll hits).maxHitsPerWindow = builder.maxHitsPerWindow := by
  induction hits using List.reverseRecOn with
  | nil => exact ⟨rfl, rfl, rfl⟩
  | append_singleton hits hit ih =>
    have fixed := (builder.pushAll hits).push_fixed hit
    rw [pushAll_concat]
    exact ⟨fixed.1.trans ih.1, fixed.2.1.trans ih.2.1, fixed.2.2.trans ih.2.2⟩

end WindowBuilder

structure HitsAscend (lineCount : Nat) (hits : List (Hit T)) : Prop where
  sorted : hits.Pairwise fun first second => first.startLine ≤ second.startLine
  within : ∀ hit ∈ hits, 1 ≤ hit.startLine ∧ hit.startLine ≤ hit.endLine ∧
    hit.endLine ≤ lineCount

theorem HitsAscend.init {lineCount : Nat} {hits : List (Hit T)} {hit : Hit T}
    (order : HitsAscend lineCount (hits ++ [hit])) : HitsAscend lineCount hits :=
  ⟨(List.pairwise_append.mp order.sorted).1,
    fun earlier mem => order.within earlier (List.mem_append_left _ mem)⟩

theorem HitsAscend.last {lineCount : Nat} {hits : List (Hit T)} {hit : Hit T}
    (order : HitsAscend lineCount (hits ++ [hit])) (earlier : Hit T) (mem : earlier ∈ hits) :
    earlier.startLine ≤ hit.startLine :=
  (List.pairwise_append.mp order.sorted).2.2 earlier mem hit (List.mem_singleton_self hit)

/-- A window holds a run of hits, and their lines. -/
structure Covers (lineCount : Nat) (run : List (Hit T)) (window : Window T) : Prop where
  hits : window.hits = run.map Hit.hit
  first : run.head?.map Hit.startLine = some window.line
  within : ∀ hit ∈ run, window.startLine ≤ hit.startLine ∧ hit.endLine ≤ window.endLine
  start_pos : 1 ≤ window.startLine
  end_le : window.endLine ≤ lineCount

theorem Covers.nonempty {lineCount : Nat} {run : List (Hit T)} {window : Window T}
    (covers : Covers lineCount run window) :
    ∃ first ∈ run, first.startLine = window.line := by
  obtain ⟨first, head, line⟩ := Option.map_eq_some_iff.mp covers.first
  exact ⟨first, List.mem_of_mem_head? head, line⟩

theorem Covers.alone {builder : WindowBuilder T} {hit : Hit T}
    (start : 1 ≤ hit.startLine) (finish : hit.endLine ≤ builder.lineCount) :
    Covers builder.lineCount [hit] (builder.alone hit) := by
  refine ⟨rfl, rfl, fun other mem => ?_, Nat.le_max_right .., Nat.min_le_right ..⟩
  rw [List.mem_singleton.mp mem]
  simp only [WindowBuilder.alone]
  omega

theorem Covers.join {lineCount finish : Nat} {run : List (Hit T)} {window : Window T}
    {hit : Hit T} (covers : Covers lineCount run window)
    (later : ∀ earlier ∈ run, earlier.startLine ≤ hit.startLine) (reaches : hit.endLine ≤ finish)
    (bounded : finish ≤ lineCount) : Covers lineCount (run ++ [hit])
      { window with endLine := max window.endLine finish, hits := window.hits ++ [hit.hit] } := by
  obtain ⟨first, mem, -⟩ := covers.nonempty
  refine ⟨?_, ?_, fun other among => ?_, covers.start_pos, Nat.max_le.mpr ⟨covers.end_le, bounded⟩⟩
  · rw [covers.hits, List.map_append]
    rfl
  · rw [List.head?_append_of_ne_nil _ (List.ne_nil_of_mem mem)]
    exact covers.first
  · have bound := covers.within first mem
    rcases List.mem_append.mp among with earlier | last
    · have within := covers.within other earlier
      simp only
      omega
    · rw [List.mem_singleton.mp last]
      have order := later first mem
      simp only
      omega

namespace WindowBuilder

theorem covers_pushAll {contextLines lineCount : Nat} {most : Option Nat} {hits : List (Hit T)}
    (order : HitsAscend lineCount hits) : ∃ runs : List (List (Hit T)), runs.flatten = hits ∧
      List.Forall₂ (Covers lineCount) runs
        ((new contextLines lineCount most).pushAll hits).windows := by
  induction hits using List.reverseRecOn with
  | nil => exact ⟨[], rfl, .nil⟩
  | append_singleton hits hit ih =>
    obtain ⟨runs, all, covers⟩ := ih order.init
    have within := order.within hit (List.mem_append_right _ (List.mem_singleton_self hit))
    have fixed := (new contextLines lineCount most).pushAll_fixed hits
    have count : ((new contextLines lineCount most).pushAll hits).lineCount = lineCount :=
      fixed.2.1
    rw [pushAll_concat]
    rcases push_cases ((new contextLines lineCount most).pushAll hits) hit with
      ⟨init, last, eq, pushed⟩ | ⟨-, pushed⟩
    · rw [eq] at covers
      obtain ⟨before, final, here, there, rfl⟩ : ∃ before final,
          List.Forall₂ (Covers lineCount) before init ∧ Covers lineCount final last ∧
            runs = before ++ [final] := by
        have tail := List.forall₂_drop_append _ _ _ covers
        cases split : runs.drop init.length with
        | nil => rw [split] at tail; cases tail
        | cons final rest =>
          rw [split] at tail
          cases tail with
          | cons there none =>
            cases none
            exact ⟨runs.take init.length, final, List.forall₂_take_append _ _ _ covers, there,
              by rw [← split, List.take_append_drop]⟩
      have later (earlier : Hit T) (mem : earlier ∈ final) :
          earlier.startLine ≤ hit.startLine := by
        refine order.last earlier ?_
        rw [← all]
        exact List.mem_flatten_of_mem (List.mem_append_right _ (List.mem_singleton_self _)) mem
      refine ⟨before ++ [final ++ [hit]], by simp [← all], ?_⟩
      rw [pushed]
      refine List.rel_append here (.cons (there.join later ?_ ?_) .nil)
      · simp only [WindowBuilder.alone, count]
        omega
      · simp only [WindowBuilder.alone, count]
        exact Nat.min_le_right ..
    · refine ⟨runs ++ [[hit]], by rw [List.flatten_append, all]; rfl, ?_⟩
      rw [pushed]
      refine List.rel_append covers (.cons ?_ .nil)
      have alone := @Covers.alone _ ((new contextLines lineCount most).pushAll hits) hit
        within.1 (by rw [count]; exact within.2.2)
      rwa [count] at alone

theorem covers_of_mem {runs : List (List (Hit T))} {windows : List (Window T)} {lineCount : Nat}
    (covers : List.Forall₂ (Covers lineCount) runs windows) {window : Window T}
    (mem : window ∈ windows) : ∃ run ∈ runs, Covers lineCount run window := by
  induction covers with
  | nil => cases mem
  | @cons run other runs windows here rest ih =>
    rcases List.mem_cons.mp mem with rfl | later
    · exact ⟨run, List.mem_cons_self, here⟩
    · obtain ⟨run, among, covers⟩ := ih later
      exact ⟨run, List.mem_cons_of_mem _ among, covers⟩

theorem window_of_mem {runs : List (List (Hit T))} {windows : List (Window T)} {lineCount : Nat}
    (covers : List.Forall₂ (Covers lineCount) runs windows) {run : List (Hit T)}
    (mem : run ∈ runs) : ∃ window ∈ windows, Covers lineCount run window := by
  induction covers with
  | nil => cases mem
  | @cons other window runs windows here rest ih =>
    rcases List.mem_cons.mp mem with rfl | later
    · exact ⟨window, List.mem_cons_self, here⟩
    · obtain ⟨window, among, covers⟩ := ih later
      exact ⟨window, List.mem_cons_of_mem _ among, covers⟩

variable {contextLines lineCount : Nat}

theorem startLine_le_endLine {most : Option Nat} {hits : List (Hit T)}
    (order : HitsAscend lineCount hits) {window : Window T}
    (mem : window ∈ ((new contextLines lineCount most).pushAll hits).windows) :
    window.startLine ≤ window.line ∧ window.line ≤ window.endLine := by
  obtain ⟨runs, all, covers⟩ :=
    @covers_pushAll _ contextLines _ most _ order
  obtain ⟨run, among, covers⟩ := covers_of_mem covers mem
  obtain ⟨first, here, line⟩ := covers.nonempty
  have inside := covers.within first here
  have bounds := order.within first (by rw [← all]; exact List.mem_flatten_of_mem among here)
  omega

theorem disjoint_pushAll {hits : List (Hit T)} (order : HitsAscend lineCount hits) :
    ((new contextLines lineCount none).pushAll hits).windows.Pairwise
      fun first second => first.endLine < second.startLine := by
  induction hits using List.reverseRecOn with
  | nil => exact .nil
  | append_singleton hits hit ih =>
    have before := ih order.init
    have room (window : Window T) :
        ((new contextLines lineCount none).pushAll hits).hasRoom window = true := by
      rw [hasRoom, ((new contextLines lineCount none).pushAll_fixed hits).2.2]
      rfl
    rw [pushAll_concat]
    rcases push_cases ((new contextLines lineCount none).pushAll hits) hit with
      ⟨init, last, eq, pushed⟩ | ⟨apart, pushed⟩
    · rw [eq, List.pairwise_append] at before
      rw [pushed, List.pairwise_append]
      refine ⟨before.1, List.pairwise_singleton .., fun window mem joined is => ?_⟩
      rw [List.mem_singleton.mp is]
      exact before.2.2 window mem last (List.mem_singleton_self last)
    · rw [pushed, List.pairwise_append]
      refine ⟨before, List.pairwise_singleton .., fun window mem added is => ?_⟩
      rw [List.mem_singleton.mp is]
      rcases List.eq_nil_or_concat ((new contextLines lineCount none).pushAll hits).windows with
        empty | ⟨init, last, eq⟩
      · rw [empty] at mem
        cases mem
      · rw [List.concat_eq_append] at eq
        have gap := apart init last eq (room last)
        rw [eq, List.mem_append, List.mem_singleton] at mem
        rcases mem with earlier | rfl
        · have ordered := @startLine_le_endLine _ contextLines _ none _ order.init last
            (by rw [eq]; simp)
          rw [eq] at before
          have behind := (List.pairwise_append.mp before).2.2 window earlier last
            (List.mem_singleton_self last)
          omega
        · omega

end WindowBuilder

theorem length_lt_iff_left_out {A : Type} {chosen all : List A} (sub : chosen.Subperm all)
    (distinct : all.Nodup) : chosen.length < all.length ↔ ∃ item ∈ all, item ∉ chosen := by
  constructor
  · intro fewer
    by_contra none
    push Not at none
    exact Nat.not_le.mpr fewer (List.subperm_of_subset distinct none).length_le
  · rintro ⟨item, mem, left_out⟩
    by_contra full
    exact left_out ((sub.perm_of_length_le (Nat.not_lt.mp full)).mem_iff.mpr mem)

def windowsOf (windows : F → List W) (files : List F) : List (F × W) :=
  files.flatMap fun file => (windows file).map fun window => (file, window)

theorem mem_windowsOf {windows : F → List W} {files : List F} {found : F × W} :
    found ∈ windowsOf windows files ↔ found.1 ∈ files ∧ found.2 ∈ windows found.1 := by
  simp only [windowsOf, List.mem_flatMap, List.mem_map]
  constructor
  · rintro ⟨file, mem, window, among, rfl⟩
    exact ⟨mem, among⟩
  · rintro ⟨mem, among⟩
    exact ⟨found.1, mem, found.2, among, rfl⟩

theorem nodup_windowsOf {windows : F → List W} {files : List F} (distinct : files.Nodup)
    (each : ∀ file ∈ files, (windows file).Nodup) : (windowsOf windows files).Nodup := by
  refine List.nodup_flatMap.mpr ⟨fun file mem => ?_, distinct.imp fun differ => ?_⟩
  · exact (each file mem).map fun _ _ same => (Prod.mk.inj same).2
  · intro found first second
    obtain ⟨_, -, rfl⟩ := List.mem_map.mp first
    obtain ⟨_, -, same⟩ := List.mem_map.mp second
    exact differ (Prod.mk.inj same).1.symm

namespace FileGroups

theorem foldl_pushFile {A : Type} (item : F → W → A) (make : A → T) (windows : F → List W)
    (perFileLimit : Nat) (files : List F) (groups : FileGroups T) (before : List (List A))
    (made : groups.groups = before.map (List.map make)) : ∃ more : List (List A),
      (files.foldl (fun groups file => groups.pushFile (windows file) perFileLimit
        fun window => make (item file window)) groups).groups =
          (before ++ more).map (List.map make) ∧
      more.flatten = files.flatMap (fun file =>
        ((windows file).take perFileLimit).map (item file)) ∧
      (∀ group ∈ more, group ≠ []) ∧
      (files.foldl (fun groups file => groups.pushFile (windows file) perFileLimit
        fun window => make (item file window)) groups).totalWindows =
          groups.totalWindows + (windowsOf windows files).length := by
  induction files generalizing groups before with
  | nil => exact ⟨[], by simp [made], rfl, nofun, rfl⟩
  | cons file files ih =>
    have step : (groups.pushFile (windows file) perFileLimit fun window =>
        make (item file window)).groups = (before ++ if (windows file).take perFileLimit = [] then []
          else [((windows file).take perFileLimit).map (item file)]).map (List.map make) := by
      simp only [pushFile, made]
      cases (windows file).take perFileLimit with
      | nil => simp
      | cons window rest => simp
    obtain ⟨more, all, flat, nonempty, total⟩ := ih _ _ step
    refine ⟨_, by rw [List.foldl_cons, all, List.append_assoc], ?_, ?_, ?_⟩
    · rw [List.flatten_append, flat, List.flatMap_cons]
      split
      · next none => simp [none]
      · simp
    · intro group mem
      rcases List.mem_append.mp mem with here | later
      · split at here
        · cases here
        · next some =>
          rw [List.mem_singleton.mp here]
          simpa using some
      · exact nonempty group later
    · rw [List.foldl_cons, total]
      simp only [pushFile, windowsOf, List.flatMap_cons, List.length_append, List.length_map]
      omega

theorem interleave_windows (windows : F → List W) (render : F → W → T) (perFileLimit limit : Nat)
    (files : List F) : ∃ chosen : List (F × W),
      ((files.foldl (fun groups file => groups.pushFile (windows file) perFileLimit (render file))
        (new : FileGroups T)).interleave limit).results =
          chosen.map (fun found => render found.1 found.2) ∧
      chosen.Subperm (windowsOf windows files) ∧
      (((files.foldl (fun groups file => groups.pushFile (windows file) perFileLimit (render file))
        (new : FileGroups T)).interleave limit).truncated = true ↔
          chosen.length < (windowsOf windows files).length) := by
  obtain ⟨groups, eq, flat, -, total⟩ := foldl_pushFile Prod.mk
    (fun found : F × W => render found.1 found.2) windows perFileLimit files new [] rfl
  rw [List.nil_append] at eq
  obtain ⟨left, perm, -⟩ := RoundRobin.interleave_perm limit groups
  refine ⟨RoundRobin.interleave limit groups, ?_, ?_, ?_⟩
  · simp only [interleave, eq, RoundRobin.interleave_map]
  · rw [flat] at perm
    refine ((List.sublist_append_left _ left).subperm.trans perm.subperm).trans ?_
    exact (List.Sublist.flatMap_right files fun file _ =>
      (List.take_sublist perFileLimit (windows file)).map _).subperm
  · simp only [interleave, eq, total, RoundRobin.interleave_map, List.length_map, decide_eq_true_eq]
    simp [new]

def byFirst {A : Type} (key : A → Nat) (left right : List A) : Bool :=
  (compare (left.head?.map key) (right.head?.map key)).isLE

theorem byFirst_trans {A : Type} (key : A → Nat) (first second third : List A)
    (le : byFirst key first second = true) (le' : byFirst key second third = true) :
    byFirst key first third = true :=
  Std.TransCmp.isLE_trans le le'

theorem byFirst_total {A : Type} (key : A → Nat) (left right : List A) :
    (byFirst key left right || byFirst key right left) = true := by
  rw [byFirst, byFirst, Std.OrientedOrd.eq_swap]
  cases compare (right.head?.map key) (left.head?.map key) <;> rfl

theorem byFirst_of_le {A : Type} {key : A → Nat} {first second : A} (le : key first ≤ key second)
    (rest more : List A) : byFirst key (first :: rest) (second :: more) = true :=
  Nat.isLE_compare.mpr le

theorem sortByFirst_groups {A : Type} (make : A → T) (key : T → Nat) {groups : FileGroups T}
    {items : List (List A)} (made : groups.groups = items.map (List.map make)) :
    (groups.sortByFirst key).groups =
      (items.mergeSort (byFirst fun item => key (make item))).map (List.map make) := by
  rw [sortByFirst, made]
  refine (List.map_mergeSort fun left _ right _ => ?_).symm
  simp only [byFirst, List.head?_map, Option.map_map]
  rfl

theorem mergeSort_byFirst {A : Type} {key : A → Nat} {first : A} {items : List (List A)}
    (nonempty : ∀ group ∈ items, group ≠ []) (least : key first = 0) :
    ∃ rest, ([first] :: items).mergeSort (byFirst key) = [first] :: rest := by
  obtain ⟨before, after, eq, split, beaten⟩ :=
    List.mergeSort_cons (byFirst_trans key) (byFirst_total key) [first] items
  cases before with
  | nil => exact ⟨after, eq⟩
  | cons group before =>
    exfalso
    have among : group ∈ items.mergeSort (byFirst key) := by
      rw [split]
      exact List.mem_append_left _ List.mem_cons_self
    obtain ⟨item, rest, rfl⟩ :=
      List.exists_cons_of_ne_nil (nonempty group (List.mem_mergeSort.mp among))
    have lost := beaten _ List.mem_cons_self
    rw [byFirst_of_le (by rw [least]; exact Nat.zero_le _)] at lost
    cases lost

end FileGroups

end CodeWeave
